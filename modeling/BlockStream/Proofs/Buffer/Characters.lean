import BlockStream.Proofs.Buffer.Pieces
import BlockStream.Proofs.Buffer.Reached
import BlockStream.Proofs.Buffer.ReadBack

namespace BlockStream

namespace Char6

/-- The code of a character, told from the range it lies in. -/
def place? (c : Char) : Option Nat :=
  if c.isLower then some (c.toNat - 'a'.toNat)
  else if c.isUpper then some (c.toNat - 'A'.toNat + 26)
  else if c.isDigit then some (c.toNat - '0'.toNat + 52)
  else if c = '.' then some 62
  else if c = '_' then some 63
  else none

theorem place?_decode : ∀ code : Fin 64, place? (decode code) = some code.val := by
  decide +kernel

theorem place?_of_lt {c : Char} (h : 122 < c.toNat) : place? c = none := by
  have hne {d : Char} (hd : d.toNat ≤ 122) : c ≠ d := by
    rintro rfl
    exact absurd h (Nat.not_lt.mpr hd)
  have hlast {last : Char} (hz : last.toNat ≤ 122) : ¬ c.val ≤ last.val := by
    rw [UInt32.le_iff_toNat_le]
    exact Nat.not_le.mpr (Nat.lt_of_le_of_lt hz h)
  have hlower : ¬ c.isLower := fun hc ↦
    hlast (by decide) (of_decide_eq_true (Bool.and_eq_true_iff.mp hc).2)
  have hupper : ¬ c.isUpper := fun hc ↦ hlast (by decide) (of_decide_eq_true hc).2
  have hdigit : ¬ c.isDigit := fun hc ↦
    hlast (by decide) (of_decide_eq_true (Bool.and_eq_true_iff.mp hc).2)
  rw [place?, if_neg hlower, if_neg hupper, if_neg hdigit, if_neg (hne (by decide)),
    if_neg (hne (by decide))]

theorem mem_alphabet_of_place? {c : Char} (h : (place? c).isSome) : c ∈ alphabet := by
  have hall : ∀ n < 123, (place? (Char.ofNat n)).isSome → Char.ofNat n ∈ alphabet := by
    decide +kernel
  rcases Nat.lt_or_ge c.toNat 123 with hlt | hge
  · have hc := hall c.toNat hlt
    rw [Char.ofNat_toNat] at hc
    exact hc h
  · simp [place?_of_lt hge] at h

theorem map_val_encode? (c : Char) : (encode? c).map Fin.val = place? c := by
  cases hc : encode? c with
  | some code => rw [Option.map_some, ← place?_decode code, decode_of_encode? hc]
  | none =>
    cases hp : place? c with
    | none => rfl
    | some n =>
      have hin : c ∈ alphabet := mem_alphabet_of_place? (by simp [hp])
      obtain ⟨code, hcode⟩ := exists_encode? hin
      cases hc.symm.trans hcode

theorem mem_alphabet_iff {c : Char} : c ∈ alphabet ↔ (place? c).isSome := by
  refine ⟨fun h ↦ ?_, mem_alphabet_of_place?⟩
  obtain ⟨code, hcode⟩ := exists_encode? h
  simp [← map_val_encode?, hcode]

theorem covers_iff {text : String} : covers text = true ↔ ∀ c ∈ text.toList, c ∈ alphabet := by
  simp [covers, mem_alphabet_iff, ← map_val_encode?]

def encoding (cs : List Char) : List Bool := (cs.filterMap place?).flatMap (bitsOf 6)

theorem encoding_cons {c : Char} {code : Fin 64} (h : encode? c = some code) (cs : List Char) :
    encoding (c :: cs) = bitsOf 6 code.val ++ encoding cs := by
  have hplace : place? c = some code.val := by simp [← map_val_encode?, h]
  simp [encoding, hplace]

theorem map_decode_codes {cs : List Char} (h : ∀ c ∈ cs, c ∈ alphabet) :
    (cs.filterMap place?).map (fun n ↦ decode (Fin.ofNat 64 n)) = cs := by
  induction cs with
  | nil => rfl
  | cons c cs ih =>
    obtain ⟨code, hcode⟩ := exists_encode? (h c List.mem_cons_self)
    have hplace : place? c = some code.val := by simp [← map_val_encode?, hcode]
    have hrest := ih fun d hd ↦ h d (List.mem_cons_of_mem _ hd)
    have hback : decode (Fin.ofNat 64 code.val) = c := by simpa using decode_of_encode? hcode
    rw [List.filterMap_cons_some hplace, List.map_cons, hback, hrest]

theorem eq_of_encoding {cs ds : List Char} (hcs : ∀ c ∈ cs, c ∈ alphabet)
    (hds : ∀ d ∈ ds, d ∈ alphabet) (h : encoding cs = encoding ds) : cs = ds := by
  have hlt (es : List Char) : ∀ n ∈ es.filterMap place?, n < 2 ^ 6 := by
    intro n hn
    obtain ⟨c, -, hc⟩ := List.mem_filterMap.mp hn
    obtain ⟨code, -, rfl⟩ := Option.map_eq_some_iff.mp ((map_val_encode? c).trans hc)
    exact code.isLt
  rw [← map_decode_codes hcs, ← map_decode_codes hds,
    eq_of_flatMap_bitsOf (by decide) (hlt cs) (hlt ds) h]

end Char6

def Write.chars (cs : List Char) : Write Unit := forM cs Write.char6

def Read.chars (count : Nat) : Read (List Char) :=
  (List.replicate count ()).mapM fun _ ↦ Read.char6

namespace Buffer

/-- The buffer `c` is `b` with these characters behind it, to be read from there whatever is written
later on. -/
structure Spells (b : Buffer) (cs : List Char) (c : Buffer) : Prop where
  covered : ∀ x ∈ cs, x ∈ Char6.alphabet
  adds : b.Adds (Char6.encoding cs) c
  bitLen_eq : c.bitLen = b.bitLen + 6 * cs.length
  reads : ∀ {xs : List Bool} {later : Buffer}, c.Adds xs later →
    Read.chars cs.length ⟨later.bytes, b.bitLen⟩ = .ok cs ⟨later.bytes, c.bitLen⟩

namespace Spells

variable {b c d : Buffer} {cs ds : List Char}

theorem refl (h : b.Tidy) : b.Spells [] b := ⟨nofun, .refl h, rfl, fun _ ↦ rfl⟩

theorem cons {x : Char} {code : Fin 64} (hx : Char6.encode? x = some code)
    (hadds : b.Adds (bitsOf 6 code.val) c) (h : c.Spells cs d) : b.Spells (x :: cs) d where
  covered y hy := by
    rcases List.mem_cons.mp hy with rfl | hin
    · exact Char6.mem_alphabet_iff.mpr (by simp [← Char6.map_val_encode?, hx])
    · exact h.covered y hin
  adds := Char6.encoding_cons hx cs ▸ hadds.trans h.adds
  bitLen_eq := by
    rw [h.bitLen_eq, hadds.bitLen_eq, length_bitsOf, List.length_cons]
    omega
  reads hlater := by
    have hread := Read.char6_of_takes (hadds.takes (h.adds.trans hlater))
    rw [Char6.decode_of_encode? hx] at hread
    exact mapM_cons_of_ok hread (h.reads hlater)

/-- Texts are told apart by the bits behind the buffers they have been written to. -/
theorem eq_of_bits {p q : Buffer} (h : b.Spells cs c) (k : p.Spells ds q)
    (hbits : c.bits.drop b.bitLen = q.bits.drop p.bitLen) : cs = ds := by
  apply Char6.eq_of_encoding h.covered k.covered
  rwa [h.adds.bits_eq, k.adds.bits_eq, List.drop_left' (length_bits b),
    List.drop_left' (length_bits p)] at hbits

theorem eq_of_bytes (h : b.Spells cs c) (k : b.Spells ds d) (hbytes : c.bytes = d.bytes)
    (hlen : cs.length = ds.length) : cs = ds := by
  apply h.eq_of_bits k
  rw [bits, bits, hbytes, h.bitLen_eq, k.bitLen_eq, hlen]

end Spells

theorem chars_of_covered {b : Buffer} (hb : b.Tidy) {cs : List Char}
    (hcs : ∀ x ∈ cs, x ∈ Char6.alphabet) : ∃ c, Write.chars cs b = .ok () c ∧ b.Spells cs c := by
  induction cs generalizing b with
  | nil => exact ⟨b, rfl, .refl hb⟩
  | cons x cs ih =>
    obtain ⟨code, hcode⟩ := Char6.exists_encode? (hcs x List.mem_cons_self)
    have hadds := adds_push hb ⟨6, code.val⟩
    have hwrite : Write.char6 x b = .ok () (b.push ⟨6, code.val⟩) := by
      rw [Write.char6, hcode]
      rfl
    obtain ⟨c, hrun, hspells⟩ := ih hadds.tidy fun y hy ↦ hcs y (List.mem_cons_of_mem _ hy)
    exact ⟨c, (bind_of_ok hwrite).trans hrun, hspells.cons hcode hadds⟩

/-- A text is written up to the first character that has no code. -/
theorem chars_of_uncovered {b : Buffer} (hb : b.Tidy) {front : List Char} {x : Char}
    (hfront : ∀ y ∈ front, y ∈ Char6.alphabet) (hx : x ∉ Char6.alphabet) (rest : List Char) :
    ∃ c, Write.chars (front ++ x :: rest) b = .error (.error (.invalidChar6 x)) c ∧
      b.Spells front c := by
  obtain ⟨c, hrun, hspells⟩ := chars_of_covered hb hfront
  refine ⟨c, ?_, hspells⟩
  have hcode : Char6.encode? x = none := by simpa [Char6.encode?] using hx
  have hstop : Write.char6 x c = .error (.error (.invalidChar6 x)) c := by
    rw [Write.char6, hcode]
    rfl
  rw [Write.chars, List.forM_append]
  exact (bind_of_ok hrun).trans (bind_of_error hstop)

theorem exists_first_uncovered {cs : List Char} (h : ¬ ∀ x ∈ cs, x ∈ Char6.alphabet) :
    ∃ front x rest, cs = front ++ x :: rest ∧ (∀ y ∈ front, y ∈ Char6.alphabet) ∧
      x ∉ Char6.alphabet := by
  obtain ⟨x, hfind⟩ : ∃ x, cs.find? (· ∉ Char6.alphabet) = some x := by
    rw [← Option.isSome_iff_exists]
    simpa using h
  obtain ⟨hx, front, rest, hcs, hfront⟩ := List.find?_eq_some_iff_append.mp hfind
  exact ⟨front, x, rest, hcs, by simpa using hfront, by simpa using hx⟩

theorem spells_of_chars {b c : Buffer} (hb : b.Tidy) {cs : List Char}
    (h : Write.chars cs b = .ok () c) : b.Spells cs c := by
  by_cases hcs : ∀ x ∈ cs, x ∈ Char6.alphabet
  · obtain ⟨d, hd, hspells⟩ := chars_of_covered hb hcs
    cases h.symm.trans hd
    exact hspells
  · obtain ⟨front, x, rest, rfl, hfront, hx⟩ := exists_first_uncovered hcs
    obtain ⟨d, hd, -⟩ := chars_of_uncovered hb hfront hx rest
    cases h.symm.trans hd

/-- Behind whatever has been appended so far, a text is written character by character just if all
its characters lie in the ranges that have a code. It then takes six bits a character, and reading
as many characters from where it begins yields the text, also after more has been appended. Any
other text is written in the same way up to the first character without a code, which is the one
that the error names. Texts that have been written are the same if the bits they have added are, or,
for texts of one length behind the same buffer, if the bytes are. -/
theorem text_read_back {existing : ByteArray} {b : Buffer}
    (h : Reached (fun _ step ↦ step.isAppend = true) existing b) (text : String) :
    (Char6.covers text = true ↔ ∀ x ∈ text.toList, (Char6.place? x).isSome) ∧
      (Char6.covers text = true ↔ ∃ c, Write.chars text.toList b = .ok () c) ∧
      (Char6.covers text = true →
        ∃ c, Write.chars text.toList b = .ok () c ∧ b.Spells text.toList c) ∧
      (Char6.covers text = false → ∃ front x rest c, text.toList = front ++ x :: rest ∧
        (∀ y ∈ front, (Char6.place? y).isSome) ∧ Char6.place? x = none ∧
        Write.chars text.toList b = .error (.error (.invalidChar6 x)) c ∧ b.Spells front c) ∧
      (∀ {source : ByteArray} {start : Buffer},
        Reached (fun _ step ↦ step.isAppend = true) source start →
        ∀ (other : String) (c d : Buffer), Write.chars text.toList b = .ok () c →
          Write.chars other.toList start = .ok () d →
          c.bits.drop b.bitLen = d.bits.drop start.bitLen → text = other) ∧
      (∀ (other : String) (c d : Buffer), Write.chars text.toList b = .ok () c →
        Write.chars other.toList b = .ok () d → text.length = other.length →
        c.bytes = d.bytes → text = other) := by
  have hb := h.tidy_of_appends
  refine ⟨?_, ⟨fun hcovers ↦ ?_, ?_⟩, fun hcovers ↦ ?_, fun hcovers ↦ ?_, ?_, ?_⟩
  · simp only [Char6.covers_iff, Char6.mem_alphabet_iff]
  · obtain ⟨c, hc, -⟩ := chars_of_covered hb (Char6.covers_iff.mp hcovers)
    exact ⟨c, hc⟩
  · rintro ⟨c, hc⟩
    exact Char6.covers_iff.mpr (spells_of_chars hb hc).covered
  · exact chars_of_covered hb (Char6.covers_iff.mp hcovers)
  · have hcs : ¬ ∀ x ∈ text.toList, x ∈ Char6.alphabet := by
      rw [← Char6.covers_iff, hcovers]
      exact Bool.false_ne_true
    obtain ⟨front, x, rest, htext, hfront, hx⟩ := exists_first_uncovered hcs
    obtain ⟨c, hc, hspells⟩ := chars_of_uncovered hb hfront hx rest
    refine ⟨front, x, rest, c, htext, ?_, ?_, htext ▸ hc, hspells⟩
    · simpa only [Char6.mem_alphabet_iff] using hfront
    · simpa [Char6.mem_alphabet_iff] using hx
  · intro source start hstart other c d hc hd hbits
    have hother := spells_of_chars hstart.tidy_of_appends hd
    exact String.toList_inj.mp ((spells_of_chars hb hc).eq_of_bits hother hbits)
  · intro other c d hc hd hlen hbytes
    have hother := spells_of_chars hb hd
    exact String.toList_inj.mp ((spells_of_chars hb hc).eq_of_bytes hother hbytes hlen)

theorem text_read_back_dashed :
    (∃ c, Write.chars "r_Z9.".toList ⟨⟨#[7, 1]⟩, 9⟩ = .ok () c ∧
      Spells ⟨⟨#[7, 1]⟩, 9⟩ "r_Z9.".toList c) ∧
    (∃ front c, Write.chars "ab-c".toList ⟨⟨#[7, 1]⟩, 9⟩ =
      .error (.error (.invalidChar6 '-')) c ∧ Spells ⟨⟨#[7, 1]⟩, 9⟩ front c) := by
  have hstart : Reached (fun _ step ↦ step.isAppend = true) ⟨#[7]⟩ ⟨⟨#[7, 1]⟩, 9⟩ :=
    Reached.start.step (.bool true) rfl
  obtain ⟨-, -, hwritten, -⟩ := text_read_back hstart "r_Z9."
  obtain ⟨-, -, -, hstopped, -⟩ := text_read_back hstart "ab-c"
  obtain ⟨front, x, rest, c, htext, -, hx, hc, hspells⟩ := hstopped (by decide)
  have hin : x ∈ "ab-c".toList := by simp [htext]
  obtain rfl | rfl | rfl | rfl : x = 'a' ∨ x = 'b' ∨ x = '-' ∨ x = 'c' := by simpa using hin
  · cases hx
  · cases hx
  · exact ⟨hwritten (by decide), front, c, hc, hspells⟩
  · cases hx

end Buffer

end BlockStream
