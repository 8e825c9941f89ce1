import BlockStream.Listing
import BlockStream.Proofs.Wire.Grammar

namespace BlockStream

/-- Registered abbreviations, each with the block id it is for, in the order they were met. -/
abbrev Known := List (UInt32 × Layout)

def Known.count (known : Known) (id : UInt32) : Nat := known.countP (·.1 = id)

namespace Reader

/-- Where a reader stands in a block: in a BLOCKINFO block the target that has been set, in any
other the id of the next definition. -/
inductive Mode
  | info (target : Option UInt32)
  | plain (next : Nat)

def enter (known : Known) (h : Header) : Mode :=
  if h.id = BlockKind.blockInfo.id then .info none
  else .plain (Format.firstAbbrev + known.count h.id)

namespace Mode

/-- The id of a definition; without a target there is none. -/
def number? (known : Known) : Mode → Option Nat
  | info target => target.map fun id ↦ Format.firstAbbrev + known.count id
  | plain next => some next

def register (known : Known) (layout : Layout) : Mode → Known
  | info (some id) => known ++ [(id, layout)]
  | _ => known

def behind : Mode → Item → Mode
  | info target, it => info (if it.setsTarget then it.target? else target)
  | plain next, .definition _ => plain (next + 1)
  | plain next, _ => plain next

end Mode

/-- A definition as a reader meets it. -/
structure Entry where
  depth : Nat
  layout : Layout
  number : Option Nat
  deriving DecidableEq

mutual

def item (known : Known) (mode : Mode) (depth : Nat) : Item → Known × List Entry
  | .block h content => items known (enter known h) (depth + 1) content
  | .record .. => (known, [])
  | .definition layout => (mode.register known layout, [⟨depth, layout, mode.number? known⟩])
termination_by structural it => it

def items (known : Known) (mode : Mode) (depth : Nat) : List Item → Known × List Entry
  | [] => (known, [])
  | it :: rest =>
    let first := item known mode depth it
    let others := items first.1 (mode.behind it) depth rest
    (others.1, first.2 ++ others.2)
termination_by structural its => its

end

end Reader

/-- The definitions of a stream, in order, with the ids a reader gives them. -/
def Stream.entries (S : Stream) : List Reader.Entry :=
  (Reader.items [] (.plain Format.firstAbbrev) 0 S.items).2

mutual

/-- The ids of the blocks in an item, itself included. -/
def Item.ids : Item → List UInt32
  | .block h items => h.id :: Item.idsAll items
  | _ => []
termination_by structural item => item

def Item.idsAll : List Item → List UInt32
  | [] => []
  | item :: rest => item.ids ++ Item.idsAll rest
termination_by structural items => items

end

namespace Registry

def targets (items : List Item) : List UInt32 :=
  items.filterMap fun item ↦ if item.setsTarget then item.target? else none

def targetsOf (b : Block) : List UInt32 :=
  if b.header.id = BlockKind.blockInfo.id then targets b.items else []

/-- Abbreviations are registered in the usual way: BLOCKINFO blocks stand outermost and hold no
blocks, no block id is a target twice, and none is one behind a block of that id. -/
structure Orderly (blocks : List Block) : Prop where
  flat : ∀ b ∈ blocks, b.header.id = BlockKind.blockInfo.id → ∀ it ∈ b.items, it.isBlock = false
  outermost : ∀ b ∈ blocks, BlockKind.blockInfo.id ∉ Item.idsAll b.items
  once : (blocks.flatMap targetsOf).Nodup
  early : blocks.Pairwise fun b later ↦ b.header.id ≠ BlockKind.blockInfo.id →
    ∀ id ∈ b.toItem.ids, id ∉ targetsOf later

end Registry

namespace Known

theorem count_append (xs ys : Known) (id : UInt32) :
    count (xs ++ ys) id = xs.count id + ys.count id := List.countP_append

theorem count_singleton (id other : UInt32) (layout : Layout) :
    count [(id, layout)] other = if id = other then 1 else 0 := by
  simp [count, List.countP_singleton]

theorem count_eq_zero {known : Known} {id : UInt32} (h : id ∉ known.map (·.1)) :
    known.count id = 0 := by
  rw [count, List.countP_eq_zero]
  intro r hr hid
  exact h (List.mem_map.mpr ⟨r, hr, of_decide_eq_true hid⟩)

end Known

namespace Registry

theorem layouts_insert (r : Registry) (id other : UInt32) (layout : Layout) :
    (r.insert (id, layout)).layouts other =
      if id = other then (r.layouts other).push layout else r.layouts other := by
  rw [insert, layouts, Std.TreeMap.getD_alter]
  by_cases hid : id = other
  · subst hid
    simp [layouts, Std.TreeMap.getD_eq_getD_getElem?]
  · simp [hid, layouts]

theorem size_layouts_foldl (known : Known) (r : Registry) (id : UInt32) :
    ((known.foldl insert r).layouts id).size = (r.layouts id).size + known.count id := by
  induction known generalizing r with
  | nil => rfl
  | cons entry known ih =>
    obtain ⟨other, layout⟩ := entry
    rw [List.foldl_cons, ih, layouts_insert, ← List.singleton_append, Known.count_append,
      Known.count_singleton]
    split
    · rw [Array.size_push]
      omega
    · omega

theorem targets_cons (it : Item) (rest : List Item) :
    targets (it :: rest) = (if it.setsTarget then it.target? else none).toList ++ targets rest := by
  rw [targets, List.filterMap_cons]
  cases if it.setsTarget then it.target? else none <;> rfl

theorem mem_targets_of_mem_ofItems {target : Option UInt32} {items : List Item}
    {r : UInt32 × Layout} (h : r ∈ ofItems target items) :
    r.1 ∈ target.toList ++ targets items := by
  induction items generalizing target with
  | nil => cases h
  | cons it rest ih =>
    rw [targets_cons]
    cases it with
    | definition layout =>
      rw [ofItems, List.mem_append] at h
      obtain hr | hr := h
      · obtain ⟨id, hid, rfl⟩ := List.mem_map.mp hr
        exact List.mem_append_left _ hid
      · exact ih hr
    | record code operands =>
      have hr := ih h
      split at hr
      case isTrue hs => exact List.mem_append_right _ (if_pos hs ▸ hr)
      case isFalse hs => rwa [if_neg hs]
    | block header items => exact ih h

theorem mem_targetsOf_of_mem_ofBlock {b : Block} {r : UInt32 × Layout} (h : r ∈ ofBlock b) :
    r.1 ∈ targetsOf b := by
  rw [ofBlock] at h
  rw [targetsOf]
  split at h
  case isTrue hid =>
    rw [if_pos hid]
    exact mem_targets_of_mem_ofItems h
  case isFalse => cases h

theorem targetsOf_of_eq {b : Block} (hid : b.header.id = BlockKind.blockInfo.id) :
    targetsOf b = targets b.items := if_pos hid

theorem ofBlock_of_ne {b : Block} (hid : b.header.id ≠ BlockKind.blockInfo.id) :
    ofBlock b = [] := if_neg hid

namespace Orderly

variable {b : Block} {blocks : List Block}

theorem tail (h : Orderly (b :: blocks)) : Orderly blocks where
  flat later hlater := h.flat later (List.mem_cons_of_mem _ hlater)
  outermost later hlater := h.outermost later (List.mem_cons_of_mem _ hlater)
  once := (List.nodup_append.mp h.once).2.1
  early := (List.pairwise_cons.mp h.early).2

theorem count_ofBlock (h : Orderly (b :: blocks)) {id : UInt32}
    (hid : id ∈ blocks.flatMap targetsOf) : Known.count (ofBlock b) id = 0 := by
  refine Known.count_eq_zero fun hmem ↦ ?_
  obtain ⟨r, hr, rfl⟩ := List.mem_map.mp hmem
  exact (List.nodup_append.mp h.once).2.2 _ (mem_targetsOf_of_mem_ofBlock hr) _ hid rfl

theorem count_flatMap (h : Orderly (b :: blocks)) (hb : b.header.id ≠ BlockKind.blockInfo.id)
    {id : UInt32} (hid : id ∈ b.toItem.ids) :
    Known.count ((b :: blocks).flatMap ofBlock) id = 0 := by
  refine Known.count_eq_zero fun hmem ↦ ?_
  obtain ⟨r, hr, rfl⟩ := List.mem_map.mp hmem
  rw [List.flatMap_cons, ofBlock_of_ne hb, List.nil_append] at hr
  obtain ⟨later, hlater, hr⟩ := List.mem_flatMap.mp hr
  exact (List.pairwise_cons.mp h.early).1 later hlater hb _ hid (mem_targetsOf_of_mem_ofBlock hr)

end Orderly

end Registry

namespace Reader

variable {known : Known} {depth next : Nat}

theorem enter_of_ne {h : Header} (hid : h.id ≠ BlockKind.blockInfo.id) :
    enter known h = .plain (Format.firstAbbrev + known.count h.id) := if_neg hid

theorem behind_plain (it : Item) :
    (Mode.plain next).behind it = .plain (Listing.nextNumber false next it) := by
  cases it <;> rfl

theorem register_info (target : Option UInt32) (layout : Layout) :
    (Mode.info target).register known layout =
      known ++ target.toList.map fun id ↦ (id, layout) := by
  cases target with
  | none => exact (List.append_nil known).symm
  | some id => rfl

theorem count_register (target : Option UInt32) (layout : Layout) (id : UInt32) :
    Known.count ((Mode.info target).register known layout) id =
      known.count id + if target = some id then 1 else 0 := by
  cases target with
  | none => rfl
  | some other =>
    rw [Mode.register, Known.count_append, Known.count_singleton]
    simp only [Option.some_inj]

mutual

theorem item_known {depth next : Nat} :
    ∀ it : Item, BlockKind.blockInfo.id ∉ it.ids → (item known (.plain next) depth it).1 = known
  | .block h content, hit => by
    rw [Item.ids, List.mem_cons, not_or] at hit
    rw [item, enter_of_ne (Ne.symm hit.1)]
    exact items_known content hit.2
  | .record .., _ => rfl
  | .definition _, _ => rfl

theorem items_known {depth next : Nat} :
    ∀ its : List Item, BlockKind.blockInfo.id ∉ Item.idsAll its →
      (items known (.plain next) depth its).1 = known
  | [], _ => rfl
  | it :: rest, hits => by
    rw [Item.idsAll, List.mem_append, not_or] at hits
    rw [items, behind_plain, item_known it hits.1]
    exact items_known rest hits.2

end

theorem items_info_known {target : Option UInt32} {its : List Item}
    (h : ∀ it ∈ its, it.isBlock = false) :
    (items known (.info target) depth its).1 = known ++ Registry.ofItems target its := by
  induction its generalizing known target with
  | nil => exact (List.append_nil known).symm
  | cons it rest ih =>
    have hrest := fun it hit ↦ h it (List.mem_cons_of_mem _ hit)
    cases it with
    | block header content => cases h _ (List.mem_cons_self ..)
    | record code operands => exact ih hrest
    | definition layout =>
      rw [Registry.ofItems, ← List.append_assoc, ← register_info]
      exact ih hrest

theorem block_known {b : Block}
    (flat : b.header.id = BlockKind.blockInfo.id → ∀ it ∈ b.items, it.isBlock = false)
    (outermost : BlockKind.blockInfo.id ∉ Item.idsAll b.items) :
    (item known (.plain next) depth b.toItem).1 = known ++ Registry.ofBlock b := by
  rw [Block.toItem, item, Registry.ofBlock, enter]
  split
  case isTrue hid => exact items_info_known (flat hid)
  case isFalse => rw [items_known b.items outermost, List.append_nil]

end Reader

theorem Stream.size_layouts (S : Stream) (id : UInt32) :
    (S.registry.layouts id).size = Known.count S.registrations id := by
  rw [Stream.registry, Registry.size_layouts_foldl]
  simp [Registry.layouts]

end BlockStream
