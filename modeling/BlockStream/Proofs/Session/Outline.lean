import BlockStream.Session.Script
import BlockStream.Proofs.Wire.Canonical

namespace BlockStream

def BlockKind.blockOf? (kind : BlockKind) (body : List Item) : Option Item :=
  let words := Wire.bodyWords kind.abbrevWidth.toNat body
  if words < UInt32.size then
    some (.block ⟨kind.id, kind.abbrevWidth, words.toUInt32⟩ body)
  else none

theorem BlockKind.blockOf?_of_lt {kind : BlockKind} {body : List Item}
    (h : Wire.bodyWords kind.abbrevWidth.toNat body < UInt32.size) :
    kind.blockOf? body = some (.block ⟨kind.id, kind.abbrevWidth,
      (Wire.bodyWords kind.abbrevWidth.toNat body).toUInt32⟩ body) := by rw [blockOf?, if_pos h]

def Item.toBlock? : Item → Option Block
  | .block h items => some ⟨h, items⟩
  | _ => none

def Stream.ofItems? (items : List Item) : Option Stream := (items.mapM Item.toBlock?).map Stream.mk

namespace Session

/-- A block that has been opened into a slot, with its items so far in reverse. -/
structure Pending where
  slot : Nat
  kind : BlockKind
  items : List Item

/-- The tree as far as it has been described: how many slots are taken, the open blocks from the
innermost out, and the items outside these, in reverse. -/
structure Draft where
  slots : Nat := 0
  pending : List Pending := []
  items : List Item := []

def Draft.add (d : Draft) (item : Item) : Draft :=
  match d.pending with
  | [] => { d with items := item :: d.items }
  | p :: outer => { d with pending := { p with items := item :: p.items } :: outer }

def declared (types : UInt32) : List Item :=
  BlockKind.registered.flatMap fun kind ↦
    .record BlockInfoCode.setBid.code.toUInt64 [kind.id.toUInt64] ::
      kind.abbrevs.map fun a ↦ .definition (a.layout.resolve types)

mutual

/-- What a step adds to a tree. Nothing is said of steps that a session would refuse, or that write
to its buffer directly. -/
def Step.describe (d : Draft) : Step → Option Draft
  | .openBlock id => do
    let kind ← BlockKind.ofId? id
    return { d with slots := d.slots + 1, pending := ⟨d.slots, kind, []⟩ :: d.pending }
  | .closeBlock slot =>
    match d.pending with
    | [] => none
    | p :: outer =>
      if slot = p.slot then do
        let block ← p.kind.blockOf? p.items.reverse
        return { d with pending := outer }.add block
      else none
  | .block id body => do
    let kind ← BlockKind.ofId? id
    let inner ← describeAll { slots := d.slots } body
    if inner.pending.isEmpty then do
      let block ← kind.blockOf? inner.items.reverse
      return { d with slots := inner.slots }.add block
    else none
  | .blockInfo types => do
    let block ← BlockKind.blockInfo.blockOf? (declared types)
    if types = 0 then none else return d.add block
  | .define layout types =>
    if types = 0 then none else some (d.add (.definition (layout.resolve types)))
  | .defineStandard id index types => do
    let a ← (BlockKind.ofId? id).bind (·.abbrevs[index]?)
    if types = 0 then none else return d.add (.definition (a.layout.resolve types))
  | .record code operands => some (d.add (.record code.toUInt64 operands))
  | .buffer _ => none
  | .content => some d
termination_by structural step => step

def describeAll (d : Draft) : List Step → Option Draft
  | [] => some d
  | step :: rest => do describeAll (← step.describe d) rest
termination_by structural steps => steps

end

def describe (steps : List Step) : Option Stream := do
  let d ← describeAll {} steps
  if d.pending.isEmpty then Stream.ofItems? d.items.reverse else none

end Session

end BlockStream
