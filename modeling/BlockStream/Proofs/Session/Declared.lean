import BlockStream.Proofs.Abbreviation.TypeIndex
import BlockStream.Proofs.Registry
import BlockStream.Proofs.Session.Outline
import BlockStream.Proofs.Wire.Sizes

namespace BlockStream

theorem BlockKind.id_injective : Function.Injective BlockKind.id := by
  intro kind other h
  have hkind := kind.ofId?_id
  rw [h, ofId?_id] at hkind
  exact (Option.some.inj hkind).symm

namespace StandardAbbrev

def ordinal : StandardAbbrev → Nat
  | valueSymtab a => a.ctorIdx
  | constants a => a.ctorIdx
  | function a => a.ctorIdx

theorem id_eq (a : StandardAbbrev) : a.id = Format.firstAbbrev + a.ordinal := by
  cases a with
  | valueSymtab a | constants a | function a => cases a <;> rfl

theorem abbrevs_ordinal (a : StandardAbbrev) : a.kind.abbrevs[a.ordinal]? = some a := by
  cases a with
  | valueSymtab a | constants a | function a => cases a <;> rfl

theorem kind_registered (a : StandardAbbrev) : a.kind ∈ BlockKind.registered := by
  cases a with
  | valueSymtab a | constants a | function a => cases a <;> decide

end StandardAbbrev

namespace Session

def layoutsOf (types : UInt32) (kind : BlockKind) : List Layout :=
  kind.abbrevs.map fun a ↦ a.layout.resolve types

theorem declared_eq (types : UInt32) :
    declared types = BlockKind.registered.flatMap fun kind ↦
      .record BlockInfoCode.setBid.code.toUInt64 [kind.id.toUInt64] ::
        (layoutsOf types kind).map .definition := by
  simp only [declared, layoutsOf, List.map_map]
  rfl

theorem small_of_declared {types : UInt32} {item : Item} (h : item ∈ declared types) :
    item.isBlock = false ∧ Wire.parts item ≤ 5 := by
  obtain ⟨kind, -, hitem⟩ := List.mem_flatMap.mp h
  rcases List.mem_cons.mp hitem with rfl | hdefinition
  · exact ⟨rfl, show 1 ≤ 5 by decide⟩
  · obtain ⟨a, -, rfl⟩ := List.mem_map.mp hdefinition
    refine ⟨rfl, ?_⟩
    have hlength : Wire.parts (.definition (a.layout.resolve types)) = a.layout.length :=
      List.length_map _
    rw [hlength]
    cases a with
    | valueSymtab a | constants a | function a => cases a <;> decide

theorem exists_blockOf?_declared (types : UInt32) :
    ∃ words : UInt32, BlockKind.blockInfo.blockOf? (declared types) =
      some (.block ⟨BlockKind.blockInfo.id, BlockKind.blockInfo.abbrevWidth, words⟩
        (declared types)) := by
  have hlength : (declared types).length = 19 := rfl
  have hwords := Wire.bodyWords_le (fun (item : Item) (h : item ∈ declared types) ↦
    small_of_declared h) (by decide) BlockKind.blockInfo.abbrevWidth.toNat
  rw [hlength] at hwords
  exact ⟨_, BlockKind.blockOf?_of_lt (Nat.lt_of_le_of_lt hwords (by decide))⟩

theorem registered_declared (types : UInt32) (id : UInt32) :
    Known.layouts (Registry.ofItems none (declared types)) id =
      (BlockKind.registered.filter (·.id = id)).flatMap (layoutsOf types) := by
  rw [declared_eq, Registry.ofItems_kinds, Known.layouts_kinds]

end Session

end BlockStream
