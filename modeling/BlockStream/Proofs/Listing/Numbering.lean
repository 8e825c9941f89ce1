import BlockStream.Proofs.Listing.Reader

namespace BlockStream

def Line.defines (l : Line) : Bool :=
  l.spans.head?.bind (·.role) == some .definition

namespace Listing

/-- The line is that of a definition a reader has met, and has the id the reader gives it if it
gives one. -/
def Shows (line : Line) (e : Reader.Entry) : Prop :=
  ∃ number, line = definitionLine e.depth number e.layout ∧ ∀ id ∈ e.number, number = id

/-- The lines of definitions among these show what a reader has met. -/
def Numbers (lines : List Line) (entries : List Reader.Entry) : Prop :=
  List.Forall₂ Shows (lines.filter Line.defines) entries

def itemLines (registry : Registry) (inInfo : Bool) (depth number : Nat) (it : Item) : List Line :=
  (item registry inInfo depth number #[] it).toList

def itemsLines (registry : Registry) (inInfo : Bool) (depth number : Nat) (its : List Item) :
    List Line :=
  (items registry inInfo depth number #[] its).toList

mutual

theorem item_toList {registry : Registry} {inInfo : Bool} {depth number : Nat}
    (lines : Array Line) :
    ∀ it : Item, (item registry inInfo depth number lines it).toList =
      lines.toList ++ itemLines registry inInfo depth number it
  | .block h content => by
    rw [itemLines, item, item, items_toList, items_toList (#[].push _)]
    simp
  | .record code operands => by
    simp [itemLines, item]
  | .definition layout => by
    simp [itemLines, item]

theorem items_toList {registry : Registry} {inInfo : Bool} {depth number : Nat}
    (lines : Array Line) :
    ∀ its : List Item, (items registry inInfo depth number lines its).toList =
      lines.toList ++ itemsLines registry inInfo depth number its
  | [] => by
    simp [itemsLines, items]
  | it :: rest => by
    rw [itemsLines, items, items, items_toList, items_toList (item ..), item_toList,
      item_toList #[]]
    simp

end

section Lines

variable {registry : Registry} {inInfo : Bool} {depth number : Nat}

theorem itemLines_block (h : Header) (content : List Item) :
    itemLines registry inInfo depth number (.block h content) =
      headerLine depth h :: itemsLines registry (h.id == BlockKind.blockInfo.id) (depth + 1)
        (firstNumber registry h.id) content := by
  rw [itemLines, item, items_toList]
  rfl

theorem itemsLines_cons (it : Item) (rest : List Item) :
    itemsLines registry inInfo depth number (it :: rest) =
      itemLines registry inInfo depth number it ++
        itemsLines registry inInfo depth (nextNumber inInfo number it) rest := by
  rw [itemsLines, items, items_toList]
  rfl

theorem nextNumber_record (code : UInt64) (operands : List UInt64) :
    nextNumber true number (.record code operands) =
      if (Item.record code operands).setsTarget then Format.firstAbbrev else number := rfl

end Lines

section Numbers

variable {lines others : List Line} {entries more : List Reader.Entry}

theorem Numbers.append (h : Numbers lines entries) (hs : Numbers others more) :
    Numbers (lines ++ others) (entries ++ more) := by
  rw [Numbers, List.filter_append]
  exact List.rel_append h hs

theorem numbers_header {depth : Nat} {h : Header} (hs : Numbers lines entries) :
    Numbers (headerLine depth h :: lines) entries := hs

theorem not_defines_recordLine (inInfo : Bool) (depth : Nat) (code : UInt64)
    (operands : List UInt64) : (recordLine inInfo depth code operands).defines = false := by
  unfold recordLine
  split <;> rfl

theorem numbers_record (inInfo : Bool) (depth : Nat) (code : UInt64) (operands : List UInt64) :
    Numbers [recordLine inInfo depth code operands] [] := by
  simp [Numbers, not_defines_recordLine]

theorem numbers_definition {depth number : Nat} {layout : Layout} {id : Option Nat}
    (h : ∀ n ∈ id, number = n) :
    Numbers [definitionLine depth number layout] [⟨depth, layout, id⟩] :=
  .cons ⟨number, rfl, h⟩ .nil

end Numbers

section Agreement

variable {registry : Registry}

/-- None of the ids is that of BLOCKINFO, and a reader knows all that is registered for them. -/
def Settled (registry : Registry) (known : Known) (ids : List UInt32) : Prop :=
  ∀ id ∈ ids, id ≠ BlockKind.blockInfo.id ∧ (registry.layouts id).size = known.count id

mutual

/-- In blocks whose registrations are all known, printer and reader count alike. -/
theorem numbers_item {known : Known} {depth number : Nat} :
    ∀ it : Item, Settled registry known it.ids →
      Numbers (itemLines registry false depth number it)
        (Reader.item known (.plain number) depth it).2
  | .block h content, hit => by
    rw [Item.ids, Settled, List.forall_mem_cons] at hit
    obtain ⟨⟨hid, hsize⟩, hcontent⟩ := hit
    rw [itemLines_block, beq_false_of_ne hid, firstNumber, hsize, Reader.item,
      Reader.enter_of_ne hid]
    exact numbers_header (numbers_items content hcontent)
  | .record code operands, _ => numbers_record false depth code operands
  | .definition layout, _ => numbers_definition fun _ hn ↦ Option.some.inj hn

theorem numbers_items {known : Known} {depth number : Nat} :
    ∀ its : List Item, Settled registry known (Item.idsAll its) →
      Numbers (itemsLines registry false depth number its)
        (Reader.items known (.plain number) depth its).2
  | [], _ => .nil
  | it :: rest, hits => by
    rw [Item.idsAll, Settled, List.forall_mem_append] at hits
    have hinfo : BlockKind.blockInfo.id ∉ it.ids := fun hmem ↦ (hits.1 _ hmem).1 rfl
    rw [itemsLines_cons, Reader.items, Reader.behind_plain, Reader.item_known it hinfo]
    exact (numbers_item it hits.1).append (numbers_items rest hits.2)

end

/-- In a BLOCKINFO block the printer counts as a reader does if nothing is known for the targets the
block sets, each is set once, and the count goes on for the one that has been set. -/
theorem numbers_info {known : Known} {target : Option UInt32} {depth number : Nat}
    {its : List Item} (flat : ∀ it ∈ its, it.isBlock = false)
    (fresh : ∀ id ∈ Registry.targets its, known.count id = 0)
    (once : (target.toList ++ Registry.targets its).Nodup)
    (hnumber : ∀ id ∈ target, number = Format.firstAbbrev + known.count id) :
    Numbers (itemsLines registry true depth number its)
      (Reader.items known (.info target) depth its).2 := by
  induction its generalizing known target number with
  | nil => exact .nil
  | cons it rest ih =>
    have hrest := fun it hit ↦ flat it (List.mem_cons_of_mem _ hit)
    rw [itemsLines_cons]
    cases it with
    | block header content => cases flat _ (List.mem_cons_self ..)
    | record code operands =>
      refine (numbers_record true depth code operands).append ?_
      rw [Registry.targets_cons] at fresh once
      rw [Reader.item, Reader.Mode.behind, nextNumber_record]
      by_cases hs : (Item.record code operands).setsTarget
      · -- both counts start at the first number, since nothing is known for the new target
        rw [if_pos hs] at fresh once ⊢
        rw [if_pos hs]
        refine ih hrest (fun id hid ↦ fresh id (List.mem_append_right _ hid))
          (List.nodup_append.mp once).2.1 ?_
        intro id hid
        rw [fresh id (List.mem_append_left _ (Option.mem_toList.mpr hid)), Nat.add_zero]
      · rw [if_neg hs] at fresh once ⊢
        rw [if_neg hs]
        exact ih hrest fresh once hnumber
    | definition layout =>
      have hcount (id : UInt32) :
          Known.count (Reader.item known (.info target) depth (.definition layout)).1 id =
            known.count id + if target = some id then 1 else 0 :=
        Reader.count_register target layout id
      refine Numbers.append (numbers_definition ?_) (ih hrest ?_ once ?_)
      · intro n hn
        obtain ⟨id, hid, rfl⟩ := Option.map_eq_some_iff.mp hn
        exact hnumber id hid
      · intro id hid
        have hne : target ≠ some id := by
          intro ht
          exact (List.nodup_append.mp once).2.2 id (Option.mem_toList.mpr ht) id hid rfl
        rw [hcount, if_neg hne, fresh id hid]
      · intro id (hid : target = some id)
        rw [hcount, if_pos hid, ← Nat.add_assoc, ← hnumber id hid]
        rfl

theorem settled_of_orderly {known : Known} {b : Block} {blocks : List Block}
    (h : Registry.Orderly (b :: blocks)) (hb : b.header.id ≠ BlockKind.blockInfo.id)
    (total : ∀ id, (registry.layouts id).size =
      known.count id + Known.count ((b :: blocks).flatMap Registry.ofBlock) id) :
    Settled registry known b.toItem.ids := by
  intro id hid
  have hne : id ≠ BlockKind.blockInfo.id := by
    rintro rfl
    rw [Block.toItem, Item.ids, List.mem_cons] at hid
    obtain heq | hmem := hid
    · exact hb heq.symm
    · exact h.outermost b (List.mem_cons_self ..) hmem
  exact ⟨hne, by rw [total, h.count_flatMap hb hid, Nat.add_zero]⟩

theorem numbers_blocks {known : Known} {blocks : List Block} (h : Registry.Orderly blocks)
    (fresh : ∀ id ∈ blocks.flatMap Registry.targetsOf, known.count id = 0)
    (total : ∀ id, (registry.layouts id).size =
      known.count id + Known.count (blocks.flatMap Registry.ofBlock) id) :
    Numbers (itemsLines registry false 0 Format.firstAbbrev (blocks.map Block.toItem))
      (Reader.items known (.plain Format.firstAbbrev) 0 (blocks.map Block.toItem)).2 := by
  -- `total` moves what a block registers from the blocks to come to what the reader knows
  induction blocks generalizing known with
  | nil => exact .nil
  | cons b rest ih =>
    have hb : b ∈ b :: rest := List.mem_cons_self ..
    have hfresh id (hid : id ∈ Registry.targetsOf b) := fresh id (List.mem_append_left _ hid)
    have honce := (List.nodup_append.mp h.once).1
    rw [List.map_cons, itemsLines_cons, Reader.items, Reader.behind_plain,
      Reader.block_known (h.flat b hb) (h.outermost b hb)]
    refine Numbers.append ?_ (ih h.tail ?_ ?_)
    · by_cases hid : b.header.id = BlockKind.blockInfo.id
      · rw [Registry.targetsOf_of_eq hid] at hfresh honce
        rw [Block.toItem, itemLines_block, hid, beq_self_eq_true, Reader.item, Reader.enter,
          if_pos hid]
        refine numbers_header (numbers_info (h.flat b hb hid) hfresh honce ?_)
        simp only [Option.not_mem_none, false_implies, implies_true]
      · exact numbers_item b.toItem (settled_of_orderly h hid total)
    · intro id hid
      rw [Known.count_append, h.count_ofBlock hid,
        fresh id (List.mem_append_right _ hid)]
    · intro id
      rw [total, List.flatMap_cons, Known.count_append, Known.count_append, Nat.add_assoc]

end Agreement

/-- In a stream that registers abbreviations in the usual way every definition has the number a
reader gives it. -/
theorem numbers_of_orderly {S : Stream} (h : Registry.Orderly S.blocks) :
    Numbers S.lines S.entries := by
  refine numbers_blocks h (fun _ _ ↦ rfl) fun id ↦ ?_
  rw [S.size_layouts, Stream.registrations]
  exact (Nat.zero_add _).symm

def registeredFirst : Stream :=
  ⟨[⟨⟨0, 2, 2⟩, [.record 1 [8], .definition [.fixed 1]]⟩,
    ⟨⟨8, 3, 1⟩, [.definition [.fixed 3]]⟩]⟩

theorem numbers_registeredFirst :
    Registry.Orderly registeredFirst.blocks ∧
      Numbers registeredFirst.lines registeredFirst.entries := by
  have h : Registry.Orderly registeredFirst.blocks :=
    ⟨by decide, by decide, by decide, by decide⟩
  exact ⟨h, numbers_of_orderly h⟩

def registeredApart : Stream :=
  ⟨[⟨⟨0, 2, 3⟩, [.record 1 [8], .definition [.fixed 1], .record 1 [8], .definition [.fixed 1]]⟩]⟩

/-- A target that is set again has its numbers from the start, which a reader does not give it. -/
theorem not_forall_numbers : ¬ ∀ S : Stream, Numbers S.lines S.entries := by
  intro h
  have hentries : registeredApart.entries = [⟨1, [.fixed 1], some 4⟩, ⟨1, [.fixed 1], some 5⟩] := by
    decide
  have hlines : registeredApart.lines.filter Line.defines =
      [definitionLine 1 4 [.fixed 1], definitionLine 1 4 [.fixed 1]] := by decide +kernel
  have happart := h registeredApart
  rw [Numbers, hentries, hlines] at happart
  obtain ⟨number, hline, hnumber⟩ := (List.forall₂_cons.mp (List.forall₂_cons.mp happart).2).1
  rw [hnumber 5 rfl] at hline
  exact absurd hline (by decide)

end Listing

end BlockStream
