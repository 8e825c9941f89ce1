import BlockStream.Proofs.Listing.Reader

namespace BlockStream

/-- The abbreviations among these that are for a block id. -/
def Known.layouts (known : Known) (id : UInt32) : List Layout :=
  known.filterMap fun r ↦ if r.1 = id then some r.2 else none

namespace Known

theorem layouts_cons (other id : UInt32) (layout : Layout) (rest : Known) :
    layouts ((other, layout) :: rest) id =
      if other = id then layout :: rest.layouts id else rest.layouts id := by
  rw [layouts, List.filterMap_cons]
  dsimp only
  by_cases h : other = id
  · rw [if_pos h, if_pos h]
    rfl
  · rw [if_neg h, if_neg h]
    rfl

theorem layouts_append (xs ys : Known) (id : UInt32) :
    layouts (xs ++ ys) id = layouts xs id ++ layouts ys id := List.filterMap_append ..

theorem layouts_of_id (other id : UInt32) (xs : List Layout) :
    layouts (xs.map fun layout ↦ (other, layout)) id = if other = id then xs else [] := by
  induction xs with
  | nil => exact (ite_self _).symm
  | cons x xs ih =>
    rw [List.map_cons, layouts_cons, ih]
    split <;> rfl

theorem layouts_kinds (kinds : List BlockKind) (xs : BlockKind → List Layout) (id : UInt32) :
    layouts (kinds.flatMap fun kind ↦ (xs kind).map fun layout ↦ (kind.id, layout)) id =
      (kinds.filter (·.id = id)).flatMap xs := by
  induction kinds with
  | nil => rfl
  | cons kind kinds ih =>
    rw [List.flatMap_cons, layouts_append, layouts_of_id, ih, List.filter_cons]
    by_cases h : kind.id = id
    · rw [if_pos h, if_pos (decide_eq_true h), List.flatMap_cons]
    · rw [if_neg h, if_neg (by simpa using h), List.nil_append]

end Known

namespace Registry

theorem getElem?_insert (r : Registry) (other id : UInt32) (layout : Layout) :
    (r.insert (other, layout))[id]? =
      if other = id then some ((r.layouts id).push layout) else r[id]? := by
  rw [insert, Std.TreeMap.getElem?_alter]
  by_cases h : other = id
  · subst h
    simp [layouts, Std.TreeMap.getD_eq_getD_getElem?]
  · simp [h]

theorem getElem?_foldl (known : Known) (r : Registry) (id : UInt32) :
    (known.foldl insert r)[id]? =
      if known.layouts id = [] then r[id]?
      else some (r.layouts id ++ (known.layouts id).toArray) := by
  induction known generalizing r with
  | nil => rfl
  | cons entry rest ih =>
    obtain ⟨other, layout⟩ := entry
    rw [List.foldl_cons, ih, getElem?_insert, layouts_insert, Known.layouts_cons]
    by_cases h : other = id
    · rw [if_pos h, if_pos h, if_pos h,
        if_neg (List.cons_ne_nil layout (Known.layouts rest id))]
      split
      · rename_i hnil
        rw [hnil, Array.push_eq_append]
      · rw [List.toArray_cons, Array.push_eq_append, Array.append_assoc]
    · rw [if_neg h, if_neg h, if_neg h]

theorem ofItems_definitions (id : UInt32) (layouts : List Layout) (rest : List Item) :
    ofItems (some id) (layouts.map .definition ++ rest) =
      layouts.map (fun layout ↦ (id, layout)) ++ ofItems (some id) rest := by
  induction layouts with
  | nil => rfl
  | cons layout layouts ih =>
    rw [List.map_cons, List.cons_append, ofItems, ih]
    rfl

theorem ofItems_setBid (target : Option UInt32) (kind : BlockKind) (rest : List Item) :
    ofItems target
        (.record BlockInfoCode.setBid.code.toUInt64 [kind.id.toUInt64] :: rest) =
      ofItems (some kind.id) rest := by
  have hid : kind.id.toUInt64.toNat < UInt32.size := by
    rw [UInt32.toNat_toUInt64]
    exact kind.id.toNat_lt
  have hsets : (Item.record BlockInfoCode.setBid.code.toUInt64 [kind.id.toUInt64]).setsTarget =
    true := rfl
  rw [ofItems, if_pos hsets, Item.target?, if_pos hid, UInt32.toUInt32_toUInt64]
  intro layout h
  cases h

theorem ofItems_kinds (kinds : List BlockKind) (layouts : BlockKind → List Layout)
    (target : Option UInt32) :
    ofItems target (kinds.flatMap fun kind ↦
        .record BlockInfoCode.setBid.code.toUInt64 [kind.id.toUInt64] ::
          (layouts kind).map .definition) =
      kinds.flatMap fun kind ↦ (layouts kind).map fun layout ↦ (kind.id, layout) := by
  induction kinds generalizing target with
  | nil => rfl
  | cons kind kinds ih =>
    rw [List.flatMap_cons, List.flatMap_cons, List.cons_append, ofItems_setBid,
      ofItems_definitions, ih]

end Registry

theorem Stream.getElem?_registry (S : Stream) (id : UInt32) :
    S.registry[id]? =
      if Known.layouts S.registrations id = [] then none
      else some (Known.layouts S.registrations id).toArray := by
  rw [registry, Registry.getElem?_foldl, Std.TreeMap.getElem?_emptyc]
  simp [Registry.layouts]

end BlockStream
