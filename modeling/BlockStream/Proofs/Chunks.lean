import BlockStream.Bits
import BlockStream.Proofs.BitString

namespace BlockStream.Vbr

/-- Chunks with `payload` digits each, of which all but the last say that another one follows. -/
inductive Chain (payload : Nat) : List Nat → Prop
  | last {chunk : Nat} : chunk < flag payload → Chain payload [chunk]
  | more {chunk : Nat} {rest : List Nat} :
      flag payload ≤ chunk → chunk < 2 * flag payload → Chain payload rest →
      Chain payload (chunk :: rest)

theorem flag_eq (payload : Nat) : flag payload = 2 ^ payload := Nat.one_shiftLeft payload

theorem mod_flag_lt (payload chunk : Nat) : chunk % flag payload < 2 ^ payload := by
  rw [flag_eq]
  exact Nat.mod_lt _ (Nat.two_pow_pos _)

theorem Chain.ne_nil {payload : Nat} {chunks : List Nat} (h : Chain payload chunks) :
    chunks ≠ [] := by cases h <;> simp

theorem ofChunks_singleton (payload chunk : Nat) :
    ofChunks payload [chunk] = chunk % flag payload := by simp [ofChunks]

theorem ofChunks_mod (payload chunk : Nat) (rest : List Nat) :
    ofChunks payload (chunk :: rest) % flag payload = chunk % flag payload := by
  rw [ofChunks, Nat.shiftLeft_eq, ← flag_eq, Nat.add_mul_mod_self_right, Nat.mod_mod]

theorem ofChunks_div (payload chunk : Nat) (rest : List Nat) :
    ofChunks payload (chunk :: rest) / flag payload = ofChunks payload rest := by
  have hdigits := mod_flag_lt payload chunk
  rw [← flag_eq] at hdigits
  rw [ofChunks, Nat.shiftLeft_eq, ← flag_eq,
    Nat.add_mul_div_right _ _ (Nat.zero_lt_of_lt hdigits), Nat.div_eq_of_lt hdigits, Nat.zero_add]

theorem ofChunks_cons_shiftLeft (payload chunk : Nat) (rest : List Nat) (shift : Nat) :
    ofChunks payload (chunk :: rest) <<< shift =
      (chunk % flag payload) <<< shift + ofChunks payload rest <<< (shift + payload) := by
  rw [ofChunks, Nat.shiftLeft_eq, Nat.add_mul, Nat.shiftLeft_eq, Nat.shiftLeft_eq,
    Nat.shiftLeft_eq, Nat.mul_assoc, ← Nat.pow_add, Nat.add_comm payload]

theorem ofChunks_lt (payload : Nat) (chunks : List Nat) :
    ofChunks payload chunks < 2 ^ (chunks.length * payload) := by
  induction chunks with
  | nil => simp [ofChunks]
  | cons chunk rest ih =>
    have hdigits := mod_flag_lt payload chunk
    rw [ofChunks, Nat.shiftLeft_eq, List.length_cons, Nat.succ_mul, Nat.pow_add]
    calc chunk % flag payload + ofChunks payload rest * 2 ^ payload
        < 2 ^ payload + ofChunks payload rest * 2 ^ payload := Nat.add_lt_add_right hdigits _
      _ = (ofChunks payload rest + 1) * 2 ^ payload := by rw [Nat.succ_mul, Nat.add_comm]
      _ ≤ 2 ^ (rest.length * payload) * 2 ^ payload := Nat.mul_le_mul_right _ ih

theorem testBit_chunk {payload chunk : Nat} (h : chunk < 2 ^ (payload + 1)) :
    chunk.testBit payload = decide (flag payload ≤ chunk) := by
  rw [Nat.testBit_eq_decide_div_mod_eq, flag_eq]
  rw [Nat.pow_succ] at h
  rcases Nat.lt_or_ge chunk (2 ^ payload) with hlt | hge
  · simp [Nat.div_eq_of_lt hlt, hlt]
  · have hone : chunk / 2 ^ payload = 1 := Nat.div_eq_of_lt_le (by omega) (by omega)
    simp [hone, hge]

namespace Chain

variable {payload : Nat} {xs ys : List Nat}

theorem lt (h : Chain payload xs) : ∀ chunk ∈ xs, chunk < 2 ^ (payload + 1) := by
  rw [Nat.pow_succ, ← flag_eq]
  induction h with
  | last hlast =>
    intro chunk hmem
    rw [List.mem_singleton.mp hmem]
    omega
  | more hle hlt hchain ih =>
    intro chunk hmem
    rcases List.mem_cons.mp hmem with rfl | hrest
    · omega
    · exact ih chunk hrest

/-- A chunk has its top bit set just where another one follows. -/
theorem testBit_getElem (h : Chain payload xs) (i : Nat) (hi : i < xs.length) :
    xs[i].testBit payload = decide (i + 1 < xs.length) := by
  rw [testBit_chunk (h.lt _ (List.getElem_mem hi)), decide_eq_decide]
  induction h generalizing i with
  | last hlast =>
    obtain rfl : i = 0 := by simpa using hi
    simpa using hlast
  | @more chunk rest hle hlt hchain ih =>
    cases i with
    | zero => simpa using iff_of_true hle (List.length_pos_iff.mpr hchain.ne_nil)
    | succ i => simpa using ih i (by simpa using hi)

theorem eq_of_length (h : Chain payload xs) (k : Chain payload ys) (hlen : xs.length = ys.length)
    (hvalue : ofChunks payload xs = ofChunks payload ys) : xs = ys := by
  induction h generalizing ys with
  | @last chunk hlast =>
    cases k with
    | last hlast' =>
      rw [ofChunks_singleton, ofChunks_singleton, Nat.mod_eq_of_lt hlast,
        Nat.mod_eq_of_lt hlast'] at hvalue
      rw [hvalue]
    | more _ _ hchain =>
      have := List.length_pos_iff.mpr hchain.ne_nil
      simp only [List.length_cons, List.length_nil] at hlen
      omega
  | @more chunk rest hle hlt hchain ih =>
    cases k with
    | last =>
      have := List.length_pos_iff.mpr hchain.ne_nil
      simp only [List.length_cons, List.length_nil] at hlen
      omega
    | @more chunk' rest' hle' hlt' hchain' =>
      have hmod := congrArg (· % flag payload) hvalue
      have hdiv := congrArg (· / flag payload) hvalue
      simp only [ofChunks_mod, ofChunks_div] at hmod hdiv
      have hchunk : chunk = chunk' := by
        rw [Nat.mod_eq_sub_mod hle, Nat.mod_eq_sub_mod hle', Nat.mod_eq_of_lt (by omega),
          Nat.mod_eq_of_lt (by omega)] at hmod
        omega
      rw [hchunk, ih hchain' (Nat.succ.inj hlen) hdiv]

end Chain

theorem chunks_of_lt {payload value : Nat} (h : value < flag payload) :
    chunks payload value = [value] := by rw [chunks, if_pos (.inr h)]

theorem chunks_of_le {payload value : Nat} (hp : 0 < payload) (h : flag payload ≤ value) :
    chunks payload value =
      (flag payload + value % flag payload) :: chunks payload (value / flag payload) := by
  rw [chunks, if_neg (by omega), Nat.shiftRight_eq_div_pow, ← flag_eq]

section Written

variable {payload : Nat} (hp : 0 < payload)
include hp

theorem one_lt_flag : 1 < flag payload := by
  rw [flag_eq]
  exact Nat.one_lt_two_pow (by omega)

theorem chunks_induction {motive : Nat → Prop} (last : ∀ value < flag payload, motive value)
    (more : ∀ value, flag payload ≤ value → motive (value / flag payload) → motive value)
    (value : Nat) : motive value := by
  induction value using Nat.strongRecOn with
  | ind value ih =>
    have hflag := one_lt_flag hp
    rcases Nat.lt_or_ge value (flag payload) with hv | hv
    · exact last value hv
    · exact more value hv (ih _ (Nat.div_lt_self (by omega) hflag))

theorem chain_chunks (value : Nat) : Chain payload (chunks payload value) := by
  induction value using chunks_induction hp with
  | last value hv =>
    rw [chunks_of_lt hv]
    exact .last hv
  | more value hv ih =>
    have hmod := Nat.mod_lt value (Nat.zero_lt_of_lt (one_lt_flag hp))
    rw [chunks_of_le hp hv]
    exact .more (Nat.le_add_right ..) (by omega) ih

theorem ofChunks_chunks (value : Nat) : ofChunks payload (chunks payload value) = value := by
  induction value using chunks_induction hp with
  | last value hv => rw [chunks_of_lt hv, ofChunks_singleton, Nat.mod_eq_of_lt hv]
  | more value hv ih =>
    rw [chunks_of_le hp hv, ofChunks, ih, Nat.shiftLeft_eq, ← flag_eq, Nat.add_mod_left,
      Nat.mod_mod]
    exact Nat.mod_add_div' value (flag payload)

theorem length_chunks_pos (value : Nat) : 0 < (chunks payload value).length :=
  List.length_pos_iff.mpr (chain_chunks hp value).ne_nil

theorem two_pow_le_of_chunks (value : Nat) (h : 1 < (chunks payload value).length) :
    2 ^ (((chunks payload value).length - 1) * payload) ≤ value := by
  induction value using chunks_induction hp with
  | last value hv =>
    rw [chunks_of_lt hv] at h
    exact absurd h (Nat.lt_irrefl 1)
  | more value hv ih =>
    have hpos := length_chunks_pos hp (value / flag payload)
    rw [chunks_of_le hp hv, List.length_cons, Nat.add_sub_cancel]
    rcases Nat.lt_or_ge 1 (chunks payload (value / flag payload)).length with hlong | hone
    · have hsplit (n : Nat) (hn : 0 < n) : n * payload = (n - 1) * payload + payload := by
        rw [← Nat.succ_mul, Nat.succ_eq_add_one, Nat.sub_add_cancel hn]
      rw [hsplit _ hpos, Nat.pow_add, ← flag_eq payload]
      exact Nat.le_trans (Nat.mul_le_mul_right _ (ih hlong)) (Nat.div_mul_le_self ..)
    · rw [Nat.le_antisymm hone hpos, Nat.one_mul, ← flag_eq]
      exact hv

theorem length_chunks_le_iff (value n : Nat) :
    (chunks payload value).length ≤ n ↔ 0 < n ∧ value < 2 ^ (n * payload) := by
  have hpos := length_chunks_pos hp value
  constructor
  · intro hle
    have hlt := ofChunks_lt payload (chunks payload value)
    rw [ofChunks_chunks hp] at hlt
    exact ⟨Nat.lt_of_lt_of_le hpos hle, Nat.lt_of_lt_of_le hlt
      (Nat.pow_le_pow_right Nat.two_pos (Nat.mul_le_mul_right payload hle))⟩
  · rintro ⟨hn, hlt⟩
    refine Nat.not_lt.mp fun hlong ↦ ?_
    have hpow := two_pow_le_of_chunks hp value (by omega)
    have hexp : n * payload ≤ ((chunks payload value).length - 1) * payload :=
      Nat.mul_le_mul_right payload (by omega)
    have := Nat.pow_le_pow_right Nat.two_pos hexp
    omega

theorem chunks_start_lt {value : Nat} (h : value < 2 ^ 64) :
    ((chunks payload value).length - 1) * payload < 64 := by
  rcases Nat.lt_or_ge 1 (chunks payload value).length with hlong | hone
  · have hpow := Nat.lt_of_le_of_lt (two_pow_le_of_chunks hp value hlong) h
    exact (Nat.pow_lt_pow_iff_right (by decide)).mp hpow
  · have hzero : (chunks payload value).length - 1 = 0 := by omega
    simp [hzero]

/-- No chain of chunks for a number is shorter than the one that is written. -/
theorem length_chunks_le {chain : List Nat} (h : Chain payload chain) :
    (chunks payload (ofChunks payload chain)).length ≤ chain.length := by
  induction h with
  | last hlast =>
    exact Nat.le_of_eq (by rw [ofChunks_singleton, Nat.mod_eq_of_lt hlast, chunks_of_lt hlast])
  | @more chunk rest hle hlt hchain ih =>
    rcases Nat.lt_or_ge (ofChunks payload (chunk :: rest)) (flag payload) with hv | hv
    · rw [chunks_of_lt hv]
      exact Nat.succ_le_succ (Nat.zero_le _)
    · rw [chunks_of_le hp hv, ofChunks_div]
      exact Nat.succ_le_succ ih

end Written

theorem flatMap_fields (width value : Nat) : (fields width value).flatMap Field.bits =
    (chunks (width - 1) value).flatMap (bitsOf width) := by
  rw [fields, List.flatMap_map]
  rfl

end BlockStream.Vbr
