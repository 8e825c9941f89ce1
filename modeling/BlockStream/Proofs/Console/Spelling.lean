import BlockStream.Console.Arguments
import Mathlib.Data.Nat.Digits.Lemmas

namespace BlockStream.Console

section Digits

theorem foldlM_digits {cs : List Char} (h : ∀ c ∈ cs, c.isDigit = true) (n : Nat) :
    cs.foldlM (fun n c ↦ if c.isDigit then some (10 * n + (c.toNat - '0'.toNat)) else none) n =
      some (Nat.ofDigitChars 10 cs n) := by
  induction cs generalizing n with
  | nil => rfl
  | cons c cs ih =>
    rw [List.foldlM_cons, if_pos (h c List.mem_cons_self)]
    exact ih (fun d hd ↦ h d (List.mem_cons_of_mem _ hd)) _

theorem digits?_toDigits (n : Nat) : digits? (Nat.toDigits 10 n) = some n := by
  have hdigits : ∀ c ∈ Nat.toDigits 10 n, c.isDigit = true := fun _ ↦
    Nat.isDigit_of_mem_toDigits (by decide) (by decide)
  rw [digits?, if_neg (by simp [Nat.toDigits_ne_nil]), foldlM_digits hdigits]
  rw [Nat.ofDigitChars_ten_toDigits]

theorem count?_repr (types : UInt32) : count? types.toNat.repr = some types := by
  have hdigit : ∀ c ∈ Nat.toDigits 10 types.toNat, c.isDigit = true := fun _ ↦
    Nat.isDigit_of_mem_toDigits (by decide) (by decide)
  have hvalue := digits?_toDigits types.toNat
  have hlt : types.toNat < UInt32.size := types.toNat_lt
  rw [count?, Nat.toList_repr]
  split
  · rename_i hsign
    exact absurd (hdigit '+' (by simp [hsign])) (by decide)
  · rename_i hsign
    exact absurd (hdigit '-' (by simp [hsign])) (by decide)
  · simp [hvalue, hlt]

end Digits

def ColorChoice.word : ColorChoice → String
  | auto => "auto"
  | always => "always"
  | never => "never"

theorem ColorChoice.ofText?_word (color : ColorChoice) : ofText? color.word = some color := by
  cases color <;> rfl

namespace Command

/-- The names of files in a command. -/
def files : Command → List String
  | dump input _ => [input]
  | blockInfo _ output _ => output.toList

/-- A command with the values attached to their options. -/
def words : Command → List String
  | dump input color => ["dump", "--color=" ++ color.word, "--", input]
  | blockInfo types output color =>
    "blockinfo" :: ("--num-types=" ++ types.toNat.repr) :: ("--color=" ++ color.word) ::
      output.toList.map fun path ↦ "--output=" ++ path

/-- A command with the values as words of their own. -/
def plainWords : Command → List String
  | dump input color => ["dump", input, "--color", color.word]
  | blockInfo types output color =>
    "blockinfo" :: "--num-types" :: types.toNat.repr ::
      ((output.toList.flatMap fun path ↦ ["-o", path]) ++ ["--color", color.word])

end Command

section Words

variable {verb : Option Verb} {r : Reading} {text : String}

theorem word_attached (hopen : r.dashed = false) {name value : List Char} (hname : '=' ∉ name)
    (htext : text.toList = '-' :: '-' :: (name ++ '=' :: value)) :
    r.word verb text = r.long verb (String.ofList name) (some (String.ofList value)) := by
  have hplain : ∀ c ∈ name, decide (c ≠ '=') = true := by
    intro c hc
    simpa using fun heq : c = '=' ↦ hname (heq ▸ hc)
  have htake : (name ++ '=' :: value).takeWhile (· ≠ '=') = name := by
    rw [List.takeWhile_append_of_pos hplain, List.takeWhile_cons_of_neg (by simp),
      List.append_nil]
  have hdrop : (name ++ '=' :: value).dropWhile (· ≠ '=') = '=' :: value := by
    rw [List.dropWhile_append_of_pos hplain, List.dropWhile_cons_of_neg (by simp)]
  rw [Reading.word, if_neg (by simp [hopen]), htext]
  generalize hrest : name ++ '=' :: value = rest at htake hdrop ⊢
  cases rest with
  | nil => simp at hrest
  | cons c cs =>
    change r.long verb (String.ofList ((c :: cs).takeWhile (· ≠ '='))) _ = _
    rw [htake, hdrop]

theorem word_value (hopen : r.dashed = false) {slot : Slot}
    (hpending : r.pending = some (slot, none)) (htext : text.toList.head? ≠ some '-') :
    r.word verb text = .ok { r with pending := some (slot, some text) } := by
  rw [Reading.word, if_neg (by simp [hopen])]
  cases hcs : text.toList with
  | nil => simp [hpending]
  | cons c cs =>
    have hc : c ≠ '-' := by simpa [hcs] using htext
    simp [hc, hpending]

theorem word_input (hopen : r.dashed = false) (hpending : r.pending = none)
    (hinput : r.given.input = none) (htext : text.toList.head? ≠ some '-') :
    r.word (some .dump) text = .ok { r with pending := some (.input, some text) } := by
  have hpositional : r.positional (some .dump) text =
      .ok { r with pending := some (.input, some text) } := by
    simp [Reading.positional, Given.has, hinput, hpending, Reading.settle]
  rw [Reading.word, if_neg (by simp [hopen])]
  cases hcs : text.toList with
  | nil => simp [hpending, hpositional]
  | cons c cs =>
    have hc : c ≠ '-' := by simpa [hcs] using htext
    simp [hc, hpending, hpositional]

theorem word_option (hopen : r.dashed = false) (hpending : r.pending = none) {slot : Slot}
    {name : List Char} (hname : '=' ∉ name)
    (hslot : long? verb (String.ofList name) = some (.slot slot)) {front value : String}
    (hfront : front.toList = '-' :: '-' :: (name ++ ['='])) {g : Given}
    (htake : r.given.take slot (some value) = .ok g) :
    r.word verb (front ++ value) = .ok { r with given := g } := by
  have htext : (front ++ value).toList = '-' :: '-' :: (name ++ '=' :: value.toList) := by
    simp [String.toList_append, hfront]
  rw [word_attached hopen hname htext, String.ofList_toList]
  simp [Reading.long, hslot, Reading.slot, Reading.settle, hpending, htake, bind, Except.bind, pure,
    Except.pure]

theorem foldlM_cons_of_ok {words : List String} {q : Reading} (h : r.word verb text = .ok q) :
    (text :: words).foldlM (Reading.word verb) r = words.foldlM (Reading.word verb) q := by
  rw [List.foldlM_cons, h]
  rfl

theorem settle_of_take {g : Given} {slot : Slot} {value : Option String}
    (hpending : r.pending = some (slot, value)) (htake : r.given.take slot value = .ok g) :
    r.settle = .ok { r with given := g, pending := none } := by
  simp [Reading.settle, hpending, htake, bind, Except.bind, pure, Except.pure]

theorem foldlM_option {q : Reading} {slot : Slot} {option value : String}
    (hoption : r.word verb option = r.slot slot none) (hsettle : r.settle = .ok q)
    (hopen : q.dashed = false) (hvalue : value.toList.head? ≠ some '-') (words : List String) :
    (option :: value :: words).foldlM (Reading.word verb) r =
      words.foldlM (Reading.word verb) { q with pending := some (slot, some value) } := by
  let asked : Reading := { q with pending := some (slot, none) }
  have hslot : r.slot slot none = .ok asked := by
    rw [Reading.slot, hsettle]
    rfl
  have hasked : asked.dashed = false := hopen
  rw [foldlM_cons_of_ok (hoption.trans hslot), foldlM_cons_of_ok (word_value hasked rfl hvalue)]

end Words

section Values

variable {g : Given}

theorem take_color (h : g.color = none) (color : ColorChoice) :
    g.take .color (some color.word) = .ok { g with color := some color } := by
  simp [Given.take, Given.has, h, Given.set, color.ofText?_word]

theorem take_types (h : g.types = none) (types : UInt32) :
    g.take .types (some types.toNat.repr) = .ok { g with types := some types } := by
  simp [Given.take, Given.has, h, Given.set, count?_repr]

theorem take_input (h : g.input = none) {path : String} (hpath : path ≠ "") :
    g.take .input (some path) = .ok { g with input := some path } := by
  simp [Given.take, Given.has, h, Given.set, hpath]

theorem take_output (h : g.output = none) {path : String} (hpath : path ≠ "") :
    g.take .output (some path) = .ok { g with output := some path } := by
  simp [Given.take, Given.has, h, Given.set, hpath]

end Values

section Options

variable {r : Reading} (hopen : r.dashed = false) (hpending : r.pending = none)
include hopen hpending

theorem word_color (verb : Verb) (hcolor : r.given.color = none) (color : ColorChoice) :
    r.word (some verb) ("--color=" ++ color.word) =
      .ok { r with given := { r.given with color := some color } } := by
  have hname : '=' ∉ "color".toList := by decide
  have hslot : long? (some verb) "color" = some (.slot .color) := by cases verb <;> rfl
  exact word_option hopen hpending hname hslot rfl (take_color hcolor color)

theorem word_types (htypes : r.given.types = none) (types : UInt32) :
    r.word (some .blockInfo) ("--num-types=" ++ types.toNat.repr) =
      .ok { r with given := { r.given with types := some types } } := by
  have hname : '=' ∉ "num-types".toList := by decide
  exact word_option hopen hpending hname rfl rfl (take_types htypes types)

theorem word_output (houtput : r.given.output = none) {path : String} (hpath : path ≠ "") :
    r.word (some .blockInfo) ("--output=" ++ path) =
      .ok { r with given := { r.given with output := some path } } := by
  have hname : '=' ∉ "output".toList := by decide
  exact word_option hopen hpending hname rfl rfl (take_output houtput hpath)

omit hpending in
theorem word_colorOption (verb : Verb) : r.word (some verb) "--color" = r.slot .color none := by
  rw [Reading.word, if_neg (by simp [hopen])]
  cases verb <;> rfl

omit hpending in
theorem word_typesOption : r.word (some .blockInfo) "--num-types" = r.slot .types none := by
  rw [Reading.word, if_neg (by simp [hopen])]
  rfl

omit hpending in
theorem word_outputOption : r.word (some .blockInfo) "-o" = r.slot .output none := by
  rw [Reading.word, if_neg (by simp [hopen])]
  rfl

end Options

section Parsing

variable {words : List String} {r q : Reading} {color : ColorChoice}

theorem parse_dump {input : String} (hfold : words.foldlM (Reading.word (some .dump)) {} = .ok r)
    (hsettle : r.settle = .ok q) (hinput : q.given.input = some input)
    (hcolor : q.given.color = some color) (hquiet : q.given.verbosity = 0) :
    parse ("dump" :: words) = .ok ⟨0, .dump input color⟩ := by
  change Verb.dump.parse 0 words = _
  simp [Verb.parse, hfold, hsettle, hinput, hcolor, hquiet, bind, Except.bind, pure, Except.pure]

theorem parse_blockInfo {types : UInt32}
    (hfold : words.foldlM (Reading.word (some .blockInfo)) {} = .ok r)
    (hsettle : r.settle = .ok q) (htypes : q.given.types = some types)
    (hcolor : q.given.color = some color) (hquiet : q.given.verbosity = 0) :
    parse ("blockinfo" :: words) = .ok ⟨0, .blockInfo types q.given.output color⟩ := by
  change Verb.blockInfo.parse 0 words = _
  simp [Verb.parse, hfold, hsettle, htypes, hcolor, hquiet, bind, Except.bind, pure, Except.pure]

theorem parse_words (c : Command) (h : ∀ path ∈ c.files, path ≠ "") :
    parse c.words = .ok ⟨0, c⟩ := by
  cases c with
  | dump input color =>
    have hinput : input ≠ "" := h input List.mem_cons_self
    have hfold : ["--color=" ++ color.word, "--", input].foldlM (Reading.word (some .dump)) {} =
        .ok ⟨{ color := some color }, some (.input, some input), true⟩ :=
      (foldlM_cons_of_ok (word_color rfl rfl .dump rfl color)).trans rfl
    exact parse_dump hfold (settle_of_take rfl (take_input rfl hinput)) rfl rfl rfl
  | blockInfo types output color =>
    have hfront (rest : List String) :
        (("--num-types=" ++ types.toNat.repr) :: ("--color=" ++ color.word) :: rest).foldlM
          (Reading.word (some .blockInfo)) {} = rest.foldlM (Reading.word (some .blockInfo))
            ⟨{ types := some types, color := some color }, none, false⟩ :=
      (foldlM_cons_of_ok (word_types rfl rfl rfl types)).trans
        (foldlM_cons_of_ok (word_color rfl rfl .blockInfo rfl color))
    cases output with
    | none => exact parse_blockInfo (hfront []) rfl rfl rfl rfl
    | some path =>
      have hpath : path ≠ "" := h path List.mem_cons_self
      have hfold := (hfront ["--output=" ++ path]).trans
        (foldlM_cons_of_ok (word_output rfl rfl rfl hpath))
      exact parse_blockInfo hfold rfl rfl rfl rfl

theorem head?_repr_ne (n : Nat) : n.repr.toList.head? ≠ some '-' := by
  intro h
  rw [Nat.toList_repr] at h
  have hdigit := Nat.isDigit_of_mem_toDigits (by decide) (by decide) (List.mem_of_head? h)
  cases hdigit

theorem head?_word_ne (color : ColorChoice) : color.word.toList.head? ≠ some '-' := by
  cases color <;> decide

theorem parse_plainWords (c : Command)
    (h : ∀ path ∈ c.files, path ≠ "" ∧ path.toList.head? ≠ some '-') :
    parse c.plainWords = .ok ⟨0, c⟩ := by
  cases c with
  | dump input color =>
    obtain ⟨hinput, hdash⟩ := h input List.mem_cons_self
    have hfold : [input, "--color", color.word].foldlM (Reading.word (some .dump)) {} =
        .ok ⟨{ input := some input }, some (.color, some color.word), false⟩ :=
      (foldlM_cons_of_ok (word_input rfl rfl rfl hdash)).trans
        (foldlM_option (word_colorOption rfl .dump) (settle_of_take rfl (take_input rfl hinput)) rfl
          (head?_word_ne color) [])
    exact parse_dump hfold (settle_of_take rfl (take_color rfl color)) rfl rfl rfl
  | blockInfo types output color =>
    have htypes := settle_of_take
      (r := ⟨{}, some (.types, some types.toNat.repr), false⟩) rfl (take_types rfl types)
    cases output with
    | none =>
      have hfold : ["--num-types", types.toNat.repr, "--color", color.word].foldlM
          (Reading.word (some .blockInfo)) {} =
            .ok ⟨{ types := some types }, some (.color, some color.word), false⟩ :=
        (foldlM_option (word_typesOption rfl) rfl rfl (head?_repr_ne types.toNat) _).trans
          (foldlM_option (word_colorOption rfl .blockInfo) htypes rfl (head?_word_ne color) [])
      exact parse_blockInfo hfold (settle_of_take rfl (take_color rfl color)) rfl rfl rfl
    | some path =>
      obtain ⟨hpath, hdash⟩ := h path List.mem_cons_self
      have hfold : ["--num-types", types.toNat.repr, "-o", path, "--color", color.word].foldlM
          (Reading.word (some .blockInfo)) {} =
            .ok ⟨{ types := some types, output := some path }, some (.color, some color.word),
              false⟩ :=
        (foldlM_option (word_typesOption rfl) rfl rfl (head?_repr_ne types.toNat) _).trans
          ((foldlM_option (word_outputOption rfl) htypes rfl hdash _).trans
            (foldlM_option (word_colorOption rfl .blockInfo)
              (settle_of_take rfl (take_output rfl hpath)) rfl (head?_word_ne color) []))
      exact parse_blockInfo hfold (settle_of_take rfl (take_color rfl color)) rfl rfl rfl

/-- A command that names no file by the empty word has a command line. If no name begins with a
dash, the values can be words of their own as well. -/
theorem parse_spellings (c : Command) (h : ∀ path ∈ c.files, path ≠ "") :
    parse c.words = .ok ⟨0, c⟩ ∧
      ((∀ path ∈ c.files, path.toList.head? ≠ some '-') → parse c.plainWords = .ok ⟨0, c⟩) :=
  ⟨parse_words c h, fun hdash ↦ parse_plainWords c fun path hpath ↦
    ⟨h path hpath, hdash path hpath⟩⟩

end Parsing

end BlockStream.Console
