import BlockStream.Console.Program
import BlockStream.Proofs.Console.Files
import BlockStream.Proofs.Decode.Safe
import BlockStream.Proofs.Session.Registered
import Mathlib

namespace BlockStream.Console

/-- The bytes are the magic and the BLOCKINFO block for so many types, and are read back as that
block. -/
structure HoldsBlockInfo (types : UInt32) (bytes : ByteArray) (S : Stream) : Prop where
  block : ∃ words, words.toNat =
      Wire.bodyWords BlockKind.blockInfo.abbrevWidth.toNat (Session.declared types) ∧
    S = ⟨[⟨⟨BlockKind.blockInfo.id, BlockKind.blockInfo.abbrevWidth, words⟩,
      Session.declared types⟩]⟩
  written : ∃ body, bytes = Format.magic ++ body ∧
    allBits body = Wire.ofItems Format.topLevelWidth 0 S.items
  decoded : Stream.decode bytes = .ok S

section Streams

theorem exists_blockInfoStream {types : UInt32} (ht : types ≠ 0) :
    ∃ bytes S log, Work.blockInfoStream types = (.ok bytes, log) ∧
      HoldsBlockInfo types bytes S := by
  obtain ⟨words, hblock⟩ := Session.exists_blockOf?_declared types
  obtain ⟨t, hrun, hemits⟩ := Session.emits_blockInfo (Session.sound_start .empty).tidy ht hblock
  obtain ⟨counted, hcounted, heq⟩ := Session.blockOf?_eq_some hblock
  let S : Stream := ⟨[⟨⟨BlockKind.blockInfo.id, BlockKind.blockInfo.abbrevWidth, words⟩,
    Session.declared types⟩]⟩
  have hdepth : S.depth ≤ Format.maxDepth := by
    simp [S, Stream.depth, Stream.items, Block.toItem, Item.depthAll, Item.depth,
      Session.depth_declared, Format.maxDepth]
  obtain ⟨body, hfinish, hbody, hdecode⟩ := Session.decode_of_emits_blocks (S := S) hemits hdepth
  cases heq
  refine ⟨_, S, t.log, ?_, ⟨words, hcounted, rfl⟩, ⟨body, rfl, hbody⟩, hdecode⟩
  rw [Work.blockInfoStream, hrun]
  dsimp only
  rw [hfinish]
  rfl

theorem blockInfoStream_zero :
    Work.blockInfoStream 0 = (.error (.encode .emptyTypeTable), #[]) := by
  rw [Work.blockInfoStream, Emit.blockInfo_of_zero rfl]
  rfl

variable {log : Array Event} {path : String} {bytes : ByteArray} {palette : Palette}

theorem print_ends (log : Array Event) (capacity : Option Nat) (text : String) :
    (Work.print log capacity text).result = .ok () ∨
      (Work.print log capacity text).result = .error .outputFull := by
  cases capacity with
  | none => exact .inl rfl
  | some n =>
    rw [Work.print]
    split
    · exact .inl rfl
    · exact .inr rfl

theorem list_of_decode {S : Stream} (h : Stream.decode bytes = .ok S) (capacity : Option Nat) :
    ∃ opened, Work.list log path bytes palette capacity =
      Work.print (log ++ opened) capacity (S.listing palette) := by
  rw [Stream.decode] at h
  rw [Work.list]
  generalize Decode.run bytes = r at h ⊢
  obtain ⟨result, opened⟩ := r
  cases h
  exact ⟨opened, rfl⟩

theorem list_of_error {e : DecodeError} (h : Stream.decode bytes = .error (.error e))
    (capacity : Option Nat) :
    ∃ opened, Work.list log path bytes palette capacity =
      Work.failed (log ++ opened) (.decode path e) := by
  rw [Stream.decode] at h
  rw [Work.list]
  generalize Decode.run bytes = r at h ⊢
  obtain ⟨result, opened⟩ := r
  cases h
  exact ⟨opened, rfl⟩

end Streams

section Exits

variable {w : Work} (verbosity : Nat)

theorem exit_of_ok (h : w.result = .ok ()) :
    ∃ events, w.exit verbosity = ⟨0, w.stdout, events⟩ := by
  rw [Work.exit, h]
  exact ⟨_, rfl⟩

theorem exit_of_error {e : CommandError} (h : w.result = .error e) :
    ∃ events, w.exit verbosity = ⟨1, w.stdout, events ++ ("error: " ++ e.message ++ "\n")⟩ := by
  rw [Work.exit, h]
  exact ⟨_, rfl⟩

theorem runWith_of_execute {σ : Type} {read : List String → Except UsageError Invocation}
    {files : FileAccess (StateM σ)} {terminal : Bool} {words : List String} {i : Invocation}
    (hread : read words = .ok i) {s t : σ}
    (hexecute : (i.command.execute files terminal none).run s = (w, t)) :
    (runWith read files terminal words).run s = (.ok (w.exit i.verbosity), t) := by
  rw [runWith, hread]
  simp [hexecute]
  rfl

end Exits

section Executions

variable {σ : Type} (files : FileAccess (StateM σ)) {s t : σ} {types : UInt32} {path : String}
  {bytes : ByteArray} {log : Array Event} (palette : Palette) (capacity : Option Nat)

theorem run_dump_of_ok (h : (files.read path).run s = (.ok bytes, t)) :
    (Work.dump files path palette capacity).run s =
      (Work.list #[.fileRead bytes.size path] path bytes palette capacity, t) := by
  simp [Work.dump, h]
  rfl

theorem run_dump_of_error {e : FileError} (h : (files.read path).run s = (.error e, t)) :
    (Work.dump files path palette capacity).run s = (Work.failed #[] (.read path e), t) := by
  simp [Work.dump, h]
  rfl

theorem run_dump_of_decode {S : Stream} (h : (files.read path).run s = (.ok bytes, t))
    (hdecode : Stream.decode bytes = .ok S) :
    ∃ w, (Work.dump files path palette none).run s = (w, t) ∧ w.result = .ok () ∧
      w.stdout = S.listing palette := by
  obtain ⟨opened, hlist⟩ := list_of_decode hdecode none
  exact ⟨_, run_dump_of_ok files palette none h, by rw [hlist]; rfl, by rw [hlist]; rfl⟩

theorem run_blockInfo_of_zero (output : Option String) :
    (Work.blockInfo files 0 output palette capacity).run s =
      (Work.failed #[] (.encode .emptyTypeTable), s) := by
  unfold Work.blockInfo
  rw [blockInfoStream_zero]
  cases output <;> rfl

section Made

variable (h : Work.blockInfoStream types = (.ok bytes, log))
include h

theorem run_blockInfo_list : (Work.blockInfo files types none palette capacity).run s =
    (Work.list log Work.blockInfoPath bytes palette capacity, s) := by
  unfold Work.blockInfo
  rw [h]
  rfl

theorem run_blockInfo_of_decode {S : Stream} (hdecode : Stream.decode bytes = .ok S) :
    ∃ w, (Work.blockInfo files types none palette none).run s = (w, s) ∧ w.result = .ok () ∧
      w.stdout = S.listing palette := by
  obtain ⟨opened, hlist⟩ := list_of_decode hdecode none
  exact ⟨_, run_blockInfo_list files palette none h, by rw [hlist]; rfl, by rw [hlist]; rfl⟩

theorem run_blockInfo_of_ok (hwrite : (files.write path bytes).run s = (.ok (), t)) :
    (Work.blockInfo files types (some path) palette capacity).run s =
      ({ log := log.push (.fileWritten bytes.size path) }, t) := by
  unfold Work.blockInfo
  rw [h]
  simp [hwrite]
  rfl

theorem run_blockInfo_of_error {e : FileError}
    (hwrite : (files.write path bytes).run s = (.error e, t)) :
    (Work.blockInfo files types (some path) palette capacity).run s =
      (Work.failed log (.write path e), t) := by
  unfold Work.blockInfo
  rw [h]
  simp [hwrite]
  rfl

end Made

/-- The stream that `blockinfo` makes is always read back, so no cause lies in its bytes. -/
theorem blockInfo_ne_decode (types : UInt32) (output : Option String) (s : σ) (place : String)
    (cause : DecodeError) :
    ((Work.blockInfo files types output palette capacity).run s).1.result ≠
      .error (.decode place cause) := by
  by_cases ht : types = 0
  · subst ht
    rw [run_blockInfo_of_zero]
    simp [Work.failed]
  obtain ⟨bytes, S, log, hstream, hholds⟩ := exists_blockInfoStream ht
  cases output with
  | none =>
    obtain ⟨opened, hlist⟩ := list_of_decode hholds.decoded capacity
    rw [run_blockInfo_list files palette capacity hstream, hlist]
    obtain hend | hend := print_ends (log ++ opened) capacity (S.listing palette)
    · simp [hend]
    · simp [hend]
  | some path =>
    cases hwrite : (files.write path bytes).run s with
    | mk result t =>
      cases result with
      | error e =>
        rw [run_blockInfo_of_error files palette capacity hstream hwrite]
        simp [Work.failed]
      | ok =>
        rw [run_blockInfo_of_ok files palette capacity hstream hwrite]
        simp

end Executions

section Outcomes

variable {σ α : Type} (files : FileAccess (StateM σ)) (view : FileView σ α) (s : σ)

/-- Why a command fails. -/
inductive Fails : Command → CommandError → Prop
  | unread {input : String} {color : ColorChoice} {cause : FileError}
      (failed : (files.read input).run s = (.error cause, s)) :
      Fails (.dump input color) (.read input cause)
  | undecoded {input : String} {color : ColorChoice} {bytes : ByteArray} {cause : DecodeError}
      (read : (files.read input).run s = (.ok bytes, s))
      (failed : Stream.decode bytes = .error (.error cause)) :
      Fails (.dump input color) (.decode input cause)
  | noTypes {output : Option String} {color : ColorChoice} :
      Fails (.blockInfo 0 output color) (.encode .emptyTypeTable)
  | unwritten {types : UInt32} {path : String} {color : ColorChoice} {bytes : ByteArray}
      {S : Stream} {cause : FileError} (counted : types ≠ 0) (holds : HoldsBlockInfo types bytes S)
      (failed : (files.write path bytes).run s = (.error cause, s)) :
      Fails (.blockInfo types (some path) color) (.write path cause)

/-- What a command that succeeds has printed, other than to a terminal, and the files it leaves. -/
inductive Succeeds : Command → String → σ → Prop
  | dumped {input : String} {color : ColorChoice} {place : α} {bytes : ByteArray} {S : Stream}
      (source : view.source? s input = some place) (file : view.find? s place = some (.file bytes))
      (read : (files.read input).run s = (.ok bytes, s)) (decoded : Stream.decode bytes = .ok S) :
      Succeeds (.dump input color) (S.listing (.ofBool (color.colors false))) s
  | listed {types : UInt32} {color : ColorChoice} {bytes : ByteArray} {S : Stream}
      (counted : types ≠ 0) (holds : HoldsBlockInfo types bytes S) :
      Succeeds (.blockInfo types none color) (S.listing (.ofBool (color.colors false))) s
  | written {types : UInt32} {path : String} {color : ColorChoice} {place : α} {bytes : ByteArray}
      {S : Stream} {u : σ} (counted : types ≠ 0) (target : view.target? s path = some place)
      (holds : HoldsBlockInfo types bytes S) (replaces : view.Replaces place bytes s u)
      (read : (files.read path).run u = (.ok bytes, u)) :
      Succeeds (.blockInfo types (some path) color) "" u

theorem decode_ok_or_error (bytes : ByteArray) :
    (∃ S, Stream.decode bytes = .ok S) ∨ ∃ e, Stream.decode bytes = .error (.error e) := by
  by_cases hmagic : Decode.hasMagic bytes = true
  · obtain ⟨body, rfl⟩ := Decode.hasMagic_iff.mp hmagic
    rw [Decode.decode_magic_append]
    obtain ⟨bs, t, hok, -⟩ | ⟨e, t, he, -⟩ :=
      (Decode.safe_blocks [] ⟨⟨body, 0⟩, #[]⟩ (Nat.zero_le _)).ends
    · exact .inl ⟨⟨bs⟩, by rw [hok]⟩
    · exact .inr ⟨e, by rw [he]⟩
  · exact .inr ⟨_, Decode.decode_of_not_hasMagic hmagic⟩

variable {files view} (hfiles : files.AllOrNothing view)
include hfiles

/-- A command fails and leaves the files alone, or does what it is for. -/
theorem execute_cases (c : Command) :
    (∃ w e, (c.execute files false none).run s = (w, s) ∧ w.result = .error e ∧
      w.stdout = "" ∧ Fails files s c e) ∨
    ∃ w u, (c.execute files false none).run s = (w, u) ∧ w.result = .ok () ∧
      Succeeds files view s c w.stdout u := by
  cases c with
  | dump input color =>
    rw [Command.execute]
    cases hread : (files.read input).run s with
    | mk result t =>
      obtain rfl := hfiles.read hread
      cases result with
      | error cause =>
        exact .inl ⟨_, _, run_dump_of_error _ _ none hread, rfl, rfl, .unread hread⟩
      | ok bytes =>
        rcases decode_ok_or_error bytes with ⟨S, hdecode⟩ | ⟨cause, hdecode⟩
        · obtain ⟨w, hexecute, hok, htext⟩ := run_dump_of_decode _ _ hread hdecode
          obtain ⟨place, hsource, hfile⟩ := hfiles.read_of_ok hread
          exact .inr ⟨w, _, hexecute, hok, htext ▸ .dumped hsource hfile hread hdecode⟩
        · obtain ⟨opened, hlist⟩ := list_of_error hdecode none
          rw [run_dump_of_ok _ _ none hread, hlist]
          exact .inl ⟨_, _, rfl, rfl, rfl, .undecoded hread hdecode⟩
  | blockInfo types output color =>
    rw [Command.execute]
    by_cases ht : types = 0
    · subst ht
      exact .inl ⟨_, _, run_blockInfo_of_zero _ _ none output, rfl, rfl, .noTypes⟩
    obtain ⟨bytes, S, log, hstream, hholds⟩ := exists_blockInfoStream ht
    cases output with
    | none =>
      obtain ⟨w, hexecute, hok, htext⟩ := run_blockInfo_of_decode _ _ hstream hholds.decoded
      exact .inr ⟨w, s, hexecute, hok, htext ▸ .listed ht hholds⟩
    | some path =>
      cases hwrite : (files.write path bytes).run s with
      | mk result u =>
        cases result with
        | error cause =>
          obtain rfl := hfiles.write_of_error hwrite
          rw [run_blockInfo_of_error _ _ none hstream hwrite]
          exact .inl ⟨_, _, rfl, rfl, rfl, .unwritten ht hholds hwrite⟩
        | ok =>
          obtain ⟨place, htarget, hreplaces, hread⟩ := hfiles.write_of_ok hwrite
          rw [run_blockInfo_of_ok _ _ none hstream hwrite]
          exact .inr ⟨_, _, rfl, rfl, .written ht htarget hholds hreplaces hread⟩

/-- Whatever reads the words and gives access to the files, reading without a change and writing all
or nothing: of words that are read as a command, either nothing but a message is left, or what the
command is for. -/
theorem command_outcome {read : List String → Except UsageError Invocation} {words : List String}
    {i : Invocation} (h : read words = .ok i) :
    ∃ exit u, (runWith read files false words).run s = (.ok exit, u) ∧
      ((exit.status = 1 ∧ exit.stdout = "" ∧ u = s ∧ ∃ e, Fails files s i.command e ∧
          ∃ events, exit.stderr = events ++ ("error: " ++ e.message ++ "\n")) ∨
        (exit.status = 0 ∧ Succeeds files view s i.command exit.stdout u)) := by
  rcases execute_cases s hfiles i.command with ⟨w, e, hexecute, herror, hempty, hfails⟩ |
    ⟨w, u, hexecute, hok, hsucceeds⟩
  · obtain ⟨events, hexit⟩ := exit_of_error i.verbosity herror
    refine ⟨_, s, runWith_of_execute h hexecute, .inl ?_⟩
    rw [hexit]
    exact ⟨rfl, hempty, rfl, e, hfails, events, rfl⟩
  · obtain ⟨events, hexit⟩ := exit_of_ok i.verbosity hok
    refine ⟨_, u, runWith_of_execute h hexecute, .inr ?_⟩
    rw [hexit]
    exact ⟨rfl, hsucceeds⟩

omit hfiles

theorem command_outcome_both : FileTree.access.AllOrNothing FileTree.view ∧
    (∃ exit u, (run FileTree.access false ["blockinfo", "--num-types", "20", "-o", "f"]).run
        ⟨[], ["tmp"]⟩ = (.ok exit, u) ∧ exit.status = 0 ∧ exit.stdout = "" ∧
      ∃ bytes S, HoldsBlockInfo 20 bytes S ∧
        FileTree.view.Replaces ["tmp", "f"] bytes ⟨[], ["tmp"]⟩ u) ∧
    ∃ exit, (run FileTree.access false ["dump", "f"]).run ⟨[], ["tmp"]⟩ =
        (.ok exit, ⟨[], ["tmp"]⟩) ∧ exit.status = 1 ∧ exit.stdout = "" := by
  have htarget : FileTree.target ⟨[], ["tmp"]⟩ "f" = .ok ["tmp", "f"] := by cbv
  have hread : FileTree.read ⟨[], ["tmp"]⟩ "f" = .error .noSuchFile := by cbv
  refine ⟨FileTree.allOrNothing_access, ?_, ?_⟩
  · have hparse : parse ["blockinfo", "--num-types", "20", "-o", "f"] =
        .ok ⟨0, .blockInfo 20 (some "f") .auto⟩ := by cbv
    obtain ⟨⟨status, stdout, stderr⟩, u, hrun, ⟨-, -, -, e, hfails, -⟩ | ⟨hstatus, hsucceeds⟩⟩ :=
      command_outcome ⟨[], ["tmp"]⟩ FileTree.allOrNothing_access hparse
    · cases hfails with
      | @unwritten _ _ _ bytes _ _ _ _ failed =>
        cases (FileTree.access_write_of_ok htarget bytes).symm.trans failed
    · cases hsucceeds with
      | written _ target holds replaces =>
        cases (congrArg Except.toOption htarget).symm.trans target
        exact ⟨_, u, hrun, hstatus, rfl, _, _, holds, replaces⟩
  · have hparse : parse ["dump", "f"] = .ok ⟨0, .dump "f" .auto⟩ := by cbv
    obtain ⟨exit, u, hrun, ⟨hstatus, hstdout, rfl, -⟩ | ⟨-, hsucceeds⟩⟩ :=
      command_outcome ⟨[], ["tmp"]⟩ FileTree.allOrNothing_access hparse
    · exact ⟨exit, hrun, hstatus, hstdout⟩
    · generalize exit.stdout = stdout at hsucceeds
      cases hsucceeds with
      | dumped _ _ read =>
        rw [FileTree.access_read, hread] at read
        cases read

end Outcomes

section Files

variable {σ : Type} (read : List String → Except UsageError Invocation)
  (files : FileAccess (StateM σ)) (terminal : Bool)

/-- Whatever words are read as the command print the text, succeed, and leave the files in the
second state when they find them in the first. -/
def Command.Prints (c : Command) (s : σ) (text : String) (t : σ) : Prop :=
  ∀ words verbosity, read words = .ok ⟨verbosity, c⟩ →
    ∃ events, (runWith read files terminal words).run s = (.ok ⟨0, text, events⟩, t)

variable {read files terminal} in
theorem prints_of_execute {c : Command} {w : Work} {s t : σ} {text : String}
    (hexecute : (c.execute files terminal none).run s = (w, t)) (hok : w.result = .ok ())
    (htext : w.stdout = text) : c.Prints read files terminal s text t := by
  intro words verbosity hread
  obtain ⟨events, hexit⟩ := exit_of_ok verbosity hok
  refine ⟨events, ?_⟩
  rw [runWith_of_execute hread hexecute, hexit, htext]

/-- Where a path keeps what is written under it, `dump` prints of a file that `blockinfo` wrote what
`blockinfo` prints itself, for every number of types and every choice of colours. -/
theorem dump_written_blockInfo {types : UInt32} (ht : types ≠ 0) {path : String} {s : σ}
    (hkeeps : files.Keeps path s) :
    (∃ t,
      (∀ terminal color,
        (Command.blockInfo types (some path) color).Prints read files terminal s "" t) ∧
      ∀ terminal color, ∃ text,
        (∀ u, (Command.blockInfo types none color).Prints read files terminal u text u) ∧
        (Command.dump path color).Prints read files terminal t text t) ∧
    ∀ terminal capacity n output color u place cause,
      (((Command.blockInfo n output color).execute files terminal capacity).run u).1.result ≠
        .error (.decode place cause) := by
  refine ⟨?_, fun terminal capacity n output color u place cause ↦
    blockInfo_ne_decode files _ capacity n output u place cause⟩
  obtain ⟨bytes, S, log, hstream, hholds⟩ := exists_blockInfoStream ht
  obtain ⟨t, hwrite, hread⟩ := hkeeps bytes
  refine ⟨t, fun terminal color ↦ ?_, fun terminal color ↦ ?_⟩
  · exact prints_of_execute (run_blockInfo_of_ok files _ none hstream hwrite) rfl rfl
  refine ⟨S.listing (.ofBool (color.colors terminal)), fun u ↦ ?_, ?_⟩
  · obtain ⟨w, hexecute, hok, htext⟩ := run_blockInfo_of_decode files _ hstream hholds.decoded
    exact prints_of_execute hexecute hok htext
  · obtain ⟨w, hexecute, hok, htext⟩ := run_dump_of_decode files _ hread hholds.decoded
    exact prints_of_execute hexecute hok htext

theorem dump_written_blockInfo_twenty : (20 : UInt32) ≠ 0 ∧
    FileTree.access.Keeps "f" ⟨[], ["tmp"]⟩ ∧ ∃ t text events₁ events₂ events₃,
      (run FileTree.access false ["blockinfo", "--num-types", "20", "-o", "f"]).run
        ⟨[], ["tmp"]⟩ = (.ok ⟨0, "", events₁⟩, t) ∧
      (run FileTree.access true ["blockinfo", "--num-types", "20", "--color", "auto"]).run t =
        (.ok ⟨0, text, events₂⟩, t) ∧
      (run FileTree.access true ["-v", "dump", "f"]).run t = (.ok ⟨0, text, events₃⟩, t) := by
  have htypes : (20 : UInt32) ≠ 0 := by decide
  have htarget : FileTree.target ⟨[], ["tmp"]⟩ "f" = .ok ["tmp", "f"] := by cbv
  have hkeeps := FileTree.keeps_of_target htarget
  obtain ⟨⟨t, hwrites, hprints⟩, -⟩ := dump_written_blockInfo parse FileTree.access htypes hkeeps
  obtain ⟨text, hlists, hdumps⟩ := hprints true .auto
  obtain ⟨events₁, hfirst⟩ :=
    hwrites false .auto ["blockinfo", "--num-types", "20", "-o", "f"] 0 (by cbv)
  obtain ⟨events₂, hsecond⟩ :=
    hlists t ["blockinfo", "--num-types", "20", "--color", "auto"] 0 (by cbv)
  obtain ⟨events₃, hthird⟩ := hdumps ["-v", "dump", "f"] 1 (by cbv)
  exact ⟨htypes, hkeeps, t, text, events₁, events₂, events₃, hfirst, hsecond, hthird⟩

end Files

end BlockStream.Console
