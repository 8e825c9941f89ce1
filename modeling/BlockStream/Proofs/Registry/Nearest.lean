import BlockStream.Proofs.Listing.Reader
import BlockStream.Proofs.Registry

namespace BlockStream

def Item.operands : Item → List UInt64
  | .record _ operands => operands
  | _ => []

/-- The nearest record in front of a place that sets a target. -/
def Item.nearestTarget? (front : List Item) : Option Item := front.reverse.find? Item.setsTarget

/-- A definition where it stands: the id of the block it lies directly in, and the items in front of
it there. -/
structure Declaration where
  block : UInt32
  front : List Item
  layout : Layout

/-- The operand is compared as it stands: one that is no block id names none. -/
def Declaration.Names (d : Declaration) (id : UInt32) : Prop :=
  d.block = BlockKind.blockInfo.id ∧
    (Item.nearestTarget? d.front).bind (·.operands.head?) = some id.toUInt64

instance (d : Declaration) (id : UInt32) : Decidable (d.Names id) :=
  inferInstanceAs (Decidable (_ ∧ _))

mutual

def Item.declarations (block : UInt32) (front : List Item) : Item → List Declaration
  | .block h content => Item.declarationsAll h.id [] content
  | .record .. => []
  | .definition layout => [⟨block, front, layout⟩]
termination_by structural item => item

def Item.declarationsAll (block : UInt32) (front : List Item) : List Item → List Declaration
  | [] => []
  | item :: rest =>
    item.declarations block front ++ Item.declarationsAll block (front ++ [item]) rest
termination_by structural items => items

end

def Block.declarations (b : Block) : List Declaration :=
  Item.declarationsAll b.header.id [] b.items

def Stream.declarations (S : Stream) : List Declaration := S.blocks.flatMap Block.declarations

def Declaration.layoutsFor (id : UInt32) (declarations : List Declaration) : List Layout :=
  (declarations.filter (·.Names id)).map (·.layout)

namespace Declaration

theorem layoutsFor_append (id : UInt32) (xs ys : List Declaration) :
    layoutsFor id (xs ++ ys) = layoutsFor id xs ++ layoutsFor id ys := by
  simp [layoutsFor]

theorem layoutsFor_singleton (id : UInt32) (d : Declaration) :
    layoutsFor id [d] = if d.Names id then [d.layout] else [] := by
  by_cases h : d.Names id <;> simp [layoutsFor, h]

theorem layoutsFor_of_ne {id : UInt32} {declarations : List Declaration}
    (h : ∀ d ∈ declarations, d.block ≠ BlockKind.blockInfo.id) :
    layoutsFor id declarations = [] := by
  rw [layoutsFor, List.map_eq_nil_iff, List.filter_eq_nil_iff]
  intro d hd hnames
  exact h d hd (of_decide_eq_true hnames).1

end Declaration

namespace Item

theorem nearestTarget?_concat (front : List Item) (item : Item) :
    nearestTarget? (front ++ [item]) =
      if item.setsTarget then some item else nearestTarget? front := by
  rw [nearestTarget?, List.reverse_append, List.reverse_singleton, List.singleton_append,
    List.find?_cons]
  cases item.setsTarget <;> rfl

theorem target?_eq_some_iff (item : Item) (id : UInt32) :
    item.target? = some id ↔ item.operands.head? = some id.toUInt64 := by
  cases item with
  | block | definition => simp [target?, operands]
  | record code values =>
    cases values with
    | nil => simp [target?, operands]
    | cons value values =>
      have hid := id.toNat_lt
      simp only [target?, operands, List.head?_cons, Option.some.injEq,
        Option.ite_none_right_eq_some]
      constructor
      · rintro ⟨hlt, rfl⟩
        rw [← UInt64.toNat_inj, UInt32.toNat_toUInt64, UInt64.toNat_toUInt32]
        exact (Nat.mod_eq_of_lt hlt).symm
      · rintro rfl
        rw [UInt32.toNat_toUInt64]
        exact ⟨hid, UInt32.toUInt32_toUInt64 id⟩

/-- What is in force for a definition is what the nearest record says. -/
theorem bind_target?_eq_some_iff (nearest : Option Item) (id : UInt32) :
    nearest.bind target? = some id ↔
      nearest.bind (·.operands.head?) = some id.toUInt64 := by
  cases nearest with
  | none => simp
  | some item => exact item.target?_eq_some_iff id

mutual

theorem block_of_mem_declarations {block : UInt32} {front : List Item} {d : Declaration} :
    ∀ item : Item, d ∈ item.declarations block front → d.block = block ∨ d.block ∈ item.ids
  | .block h content, hd => by
    rw [ids, List.mem_cons]
    exact .inr (block_of_mem_declarationsAll content hd)
  | .record .., hd => by cases hd
  | .definition layout, hd => by
    obtain rfl := List.mem_singleton.mp hd
    exact .inl rfl

theorem block_of_mem_declarationsAll {block : UInt32} {front : List Item} {d : Declaration} :
    ∀ items : List Item, d ∈ declarationsAll block front items →
      d.block = block ∨ d.block ∈ idsAll items
  | [], hd => by cases hd
  | item :: rest, hd => by
    rw [idsAll, List.mem_append]
    rcases List.mem_append.mp hd with hd | hd
    · exact (block_of_mem_declarations item hd).imp_right .inl
    · exact (block_of_mem_declarationsAll rest hd).imp_right .inr

end

end Item

namespace Registry

theorem layouts_of_target (target : Option UInt32) (id : UInt32) (layout : Layout) :
    Known.layouts (target.toList.map fun id ↦ (id, layout)) id =
      if target = some id then [layout] else [] := by
  cases target with
  | none => rfl
  | some other => simpa using Known.layouts_of_id other id [layout]

/-- The target that the scan of a BLOCKINFO block carries along is that of the nearest record. -/
theorem layouts_ofItems (id : UInt32) (front : List Item) {items : List Item}
    (h : BlockKind.blockInfo.id ∉ Item.idsAll items) :
    Known.layouts (ofItems ((Item.nearestTarget? front).bind Item.target?) items) id =
      Declaration.layoutsFor id
        (Item.declarationsAll BlockKind.blockInfo.id front items) := by
  induction items generalizing front with
  | nil => rfl
  | cons item rest ih =>
    rw [Item.idsAll, List.mem_append, not_or] at h
    have hrest := ih (front ++ [item]) h.2
    rw [Item.declarationsAll, Declaration.layoutsFor_append, ← hrest, Item.nearestTarget?_concat]
    cases item with
    | block header content =>
      have hinner : Declaration.layoutsFor id
          ((Item.block header content).declarations BlockKind.blockInfo.id front) = [] := by
        refine Declaration.layoutsFor_of_ne fun d hd heq ↦ h.1 ?_
        rw [Item.ids, List.mem_cons, ← heq]
        exact (Item.block_of_mem_declarationsAll content hd)
      rw [hinner]
      rfl
    | record code operands =>
      rw [ofItems, apply_ite (Option.bind · Item.target?)]
      · rfl
      · rintro layout ⟨⟩
    | definition layout =>
      rw [ofItems, Known.layouts_append, Item.declarations, Declaration.layoutsFor_singleton,
        layouts_of_target]
      simp only [Declaration.Names, true_and, Item.bind_target?_eq_some_iff]
      rfl

theorem layouts_ofBlock (id : UInt32) {b : Block}
    (h : BlockKind.blockInfo.id ∉ Item.idsAll b.items) :
    Known.layouts (ofBlock b) id = Declaration.layoutsFor id b.declarations := by
  rw [ofBlock, Block.declarations]
  split
  · rename_i hid
    rw [hid]
    exact layouts_ofItems id [] h
  · rename_i hne
    refine (Declaration.layoutsFor_of_ne fun d hd heq ↦ ?_).symm
    rcases Item.block_of_mem_declarationsAll b.items hd with hb | hb
    · exact hne (hb.symm.trans heq)
    · exact h (heq ▸ hb)

end Registry

theorem Stream.layouts_registrations (id : UInt32) {blocks : List Block}
    (h : ∀ b ∈ blocks, BlockKind.blockInfo.id ∉ Item.idsAll b.items) :
    Known.layouts (Stream.mk blocks).registrations id =
      Declaration.layoutsFor id (Stream.mk blocks).declarations := by
  induction blocks with
  | nil => rfl
  | cons b blocks ih =>
    obtain ⟨hb, hblocks⟩ := List.forall_mem_cons.mp h
    simp only [registrations, declarations, List.flatMap_cons, Known.layouts_append,
      Declaration.layoutsFor_append] at ih ⊢
    rw [Registry.layouts_ofBlock id hb, ih hblocks]

theorem Stream.getElem?_registry_append (A B : Stream) (id : UInt32) :
    (Stream.mk (A.blocks ++ B.blocks)).registry[id]? =
      Option.merge (fun xs ys ↦ xs ++ ys) A.registry[id]? B.registry[id]? := by
  have hall : (Stream.mk (A.blocks ++ B.blocks)).registrations =
      A.registrations ++ B.registrations := List.flatMap_append
  simp only [getElem?_registry, hall, Known.layouts_append]
  cases Known.layouts A.registrations id <;> cases Known.layouts B.registrations id <;> simp

/-- What a stream with BLOCKINFO blocks only outermost registers for an id are the definitions that
name it, in order. One stream behind another registers what the first does and then what it does
itself. -/
theorem Stream.registry_eq_declared :
    (∀ S : Stream, (∀ b ∈ S.blocks, BlockKind.blockInfo.id ∉ Item.idsAll b.items) →
      ∀ id, S.registry[id]? = if Declaration.layoutsFor id S.declarations = [] then none
        else some (Declaration.layoutsFor id S.declarations).toArray) ∧
    ∀ (A B : Stream) (id : UInt32), (Stream.mk (A.blocks ++ B.blocks)).registry[id]? =
      Option.merge (fun xs ys ↦ xs ++ ys) A.registry[id]? B.registry[id]? := by
  refine ⟨fun S h id ↦ ?_, getElem?_registry_append⟩
  rw [getElem?_registry, layouts_registrations id h]

theorem Stream.registry_retargeted :
    let wide : UInt64 := 4294967304
    let S : Stream := ⟨[
      ⟨⟨0, 2, 0⟩, [.definition [.literal 1], .record 1 [], .definition [.literal 2],
        .record 1 [wide], .definition [.literal 3], .record 1 [8, 9], .definition [.literal 4],
        .record 2 [9], .block ⟨8, 3, 0⟩ [.record 1 [9], .definition [.literal 5]],
        .definition [.literal 6]]⟩,
      ⟨⟨0, 2, 0⟩, [.definition [.literal 7], .record 1 [8], .definition [.literal 8]]⟩]⟩
    (∀ b ∈ S.blocks, BlockKind.blockInfo.id ∉ Item.idsAll b.items) ∧
      S.registry[(8 : UInt32)]? = some #[[.literal 4], [.literal 6], [.literal 8]] ∧
      S.registry[(9 : UInt32)]? = none := by
  intro wide S
  have houter : ∀ b ∈ S.blocks, BlockKind.blockInfo.id ∉ Item.idsAll b.items := by decide
  have hregistry := registry_eq_declared.1 S houter
  exact ⟨houter, hregistry 8, hregistry 9⟩

end BlockStream
