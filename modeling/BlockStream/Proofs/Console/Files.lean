import BlockStream.Console.Files
import Mathlib.Data.List.Infix

namespace BlockStream.Console

/-- Whatever is written under the path goes through and is read under it afterwards. -/
def FileAccess.Keeps {σ : Type} (files : FileAccess (StateM σ)) (path : String) (s : σ) : Prop :=
  ∀ bytes, ∃ t, (files.write path bytes).run s = (.ok (), t) ∧
    (files.read path).run t = (.ok bytes, t)

/-- What states show of their files: the node at each place, the places that a path is read from and
written to, and the working directory. -/
structure FileView (σ α : Type) where
  find? : σ → α → Option FileNode
  source? : σ → String → Option α
  target? : σ → String → Option α
  home : σ → α

/-- From the first state to the second, the bytes have come to the place and all else has stayed. -/
structure FileView.Replaces {σ α : Type} (view : FileView σ α) (place : α) (bytes : ByteArray)
    (s t : σ) : Prop where
  file : view.find? t place = some (.file bytes)
  others : ∀ p, p ≠ place → view.find? t p = view.find? s p
  home : view.home t = view.home s

/-- Reading changes nothing and yields the file that the path names. A write does nothing and says
why, or it replaces the file that the path names, which is then read under that path. -/
structure FileAccess.AllOrNothing {σ α : Type} (files : FileAccess (StateM σ))
    (view : FileView σ α) : Prop where
  read : ∀ {path s r t}, (files.read path).run s = (r, t) → t = s
  read_of_ok : ∀ {path s bytes t}, (files.read path).run s = (.ok bytes, t) →
    ∃ place, view.source? s path = some place ∧ view.find? s place = some (.file bytes)
  write_of_error : ∀ {path bytes s e t}, (files.write path bytes).run s = (.error e, t) → t = s
  write_of_ok : ∀ {path bytes s t}, (files.write path bytes).run s = (.ok (), t) →
    ∃ place, view.target? s path = some place ∧ view.Replaces place bytes s t ∧
      (files.read path).run t = (.ok bytes, t)

namespace FileTree

/-- The place that a path names for reading. -/
def source (t : FileTree) (path : String) : Except FileError (List String) := do
  let (start, names) ← t.split path
  t.walk start (if path.endsWith "/" then names ++ ["."] else names)

def view : FileView FileTree (List String) where
  find? := find?
  source? t path := (t.source path).toOption
  target? t path := (t.target path).toOption
  home := home

section Put

variable (t : FileTree) (place : List String) (bytes : ByteArray)

@[simp] theorem home_put : (t.put place bytes).home = t.home := by
  rw [put]
  split <;> rfl

theorem lookup_cons_of_ne {p key : List String} (h : p ≠ key) (node : FileNode)
    (entries : List (List String × FileNode)) :
    ((key, node) :: entries).lookup p = entries.lookup p := by
  rw [List.lookup_cons, beq_eq_false_iff_ne.mpr h]

theorem lookup_put_self : (t.put place bytes).entries.lookup place = some (.file bytes) := by
  rw [put]
  split
  · rename_i hsome
    dsimp only
    generalize t.entries = entries at hsome ⊢
    induction entries with
    | nil => cases hsome
    | cons e entries ih =>
      obtain ⟨key, node⟩ := e
      by_cases hkey : key = place
      · simp [hkey]
      · rw [lookup_cons_of_ne (Ne.symm hkey)] at hsome
        rw [List.map_cons, if_neg hkey, lookup_cons_of_ne (Ne.symm hkey)]
        exact ih hsome
  · rename_i hnone
    rw [Bool.not_eq_true, Option.isSome_eq_false_iff, Option.isNone_iff_eq_none] at hnone
    simp [List.lookup_append, hnone]

theorem lookup_put_of_ne {p : List String} (h : p ≠ place) :
    (t.put place bytes).entries.lookup p = t.entries.lookup p := by
  rw [put]
  split
  · dsimp only
    induction t.entries with
    | nil => rfl
    | cons e entries ih =>
      obtain ⟨key, node⟩ := e
      by_cases hkey : key = place
      · rw [List.map_cons, if_pos hkey, lookup_cons_of_ne h, lookup_cons_of_ne (hkey ▸ h), ih]
      · rw [List.map_cons, if_neg hkey, List.lookup_cons, List.lookup_cons, ih]
  · simp [List.lookup_append, lookup_cons_of_ne h]

theorem keys_put : (t.put place bytes).entries.map Prod.fst =
    if (t.entries.lookup place).isSome then t.entries.map Prod.fst
    else t.entries.map Prod.fst ++ [place] := by
  rw [put]
  split
  · rw [List.map_map]
    apply List.map_congr_left
    intro e _
    by_cases hkey : e.1 = place
    · simp [hkey]
    · simp [hkey]
  · simp

end Put

section Frame

/-- Whether a place lies on the way to an entry or to the working directory. -/
def Leads (t : FileTree) (p : List String) : Prop :=
  p <+: t.home ∨ ∃ key ∈ t.entries.map Prod.fst, p <+: key

theorem Leads.above {t : FileTree} {p q : List String} (h : t.Leads q) (hpq : p <+: q) :
    t.Leads p := by
  rcases h with h | ⟨key, hkey, h⟩
  · exact .inl (hpq.trans h)
  · exact .inr ⟨key, hkey, hpq.trans h⟩

theorem find?_of_lookup_eq_none {t : FileTree} {p : List String}
    (h : t.entries.lookup p = none) :
    (t.Leads p → t.find? p = some .directory) ∧ (¬ t.Leads p → t.find? p = none) := by
  have hleads : (p.isPrefixOf t.home || t.entries.any fun e ↦ p.isPrefixOf e.1) = true ↔
      t.Leads p := by
    simp [Leads, List.isPrefixOf_iff_prefix]
  rw [find?, h]
  exact ⟨fun hp ↦ if_pos (hleads.mpr hp), fun hp ↦ if_neg (mt hleads.mp hp)⟩

theorem leads_of_directory {t : FileTree} {p : List String} (h : t.find? p = some .directory) :
    t.Leads p := by
  cases hlookup : t.entries.lookup p with
  | some node =>
    obtain ⟨front, back, hentries, -⟩ := List.lookup_eq_some_iff.mp hlookup
    exact .inr ⟨p, by simp [hentries], List.prefix_refl p⟩
  | none =>
    by_contra hnot
    rw [(find?_of_lookup_eq_none hlookup).2 hnot] at h
    cases h

variable {t : FileTree} {parent : List String} {name : String} (bytes : ByteArray)

theorem find?_put_self (place : List String) :
    (t.put place bytes).find? place = some (.file bytes) := by
  rw [find?, lookup_put_self]

/-- What leads to a new entry has led to its directory before. -/
theorem leads_put_iff (hparent : t.find? parent = some .directory) {p : List String}
    (h : p ≠ parent ++ [name]) : (t.put (parent ++ [name]) bytes).Leads p ↔ t.Leads p := by
  rw [Leads, home_put, keys_put]
  split
  · rfl
  · refine ⟨?_, fun hp ↦ hp.imp_right fun ⟨key, hkey, hprefix⟩ ↦
      ⟨key, List.mem_append_left _ hkey, hprefix⟩⟩
    rintro (hhome | ⟨key, hkey, hprefix⟩)
    · exact .inl hhome
    · rcases List.mem_append.mp hkey with hkey | hkey
      · exact .inr ⟨key, hkey, hprefix⟩
      · obtain rfl := List.mem_singleton.mp hkey
        have hup := (List.prefix_concat_iff.mp hprefix).resolve_left h
        exact (leads_of_directory hparent).above hup

theorem find?_put_of_ne (hparent : t.find? parent = some .directory) {p : List String}
    (h : p ≠ parent ++ [name]) : (t.put (parent ++ [name]) bytes).find? p = t.find? p := by
  have hlookup := lookup_put_of_ne t (parent ++ [name]) bytes h
  cases hp : t.entries.lookup p with
  | some node => rw [find?, find?, hlookup, hp]
  | none =>
    have hafter := find?_of_lookup_eq_none (hlookup.trans hp)
    have hbefore := find?_of_lookup_eq_none hp
    rw [leads_put_iff bytes hparent h] at hafter
    by_cases hleads : t.Leads p
    · rw [hafter.1 hleads, hbefore.1 hleads]
    · rw [hafter.2 hleads, hbefore.2 hleads]

end Frame

section Walk

variable {t u : FileTree}

theorem walk_cons_eq_ok {place q : List String} {name : String} {rest : List String} :
    t.walk place (name :: rest) = .ok q ↔ t.find? place = some .directory ∧
      (name = "." ∧ t.walk place rest = .ok q ∨
        name = ".." ∧ t.walk place.dropLast rest = .ok q ∨
        name ≠ "." ∧ name ≠ ".." ∧ name.utf8ByteSize ≤ maxNameBytes ∧
          (t.find? (place ++ [name])).isSome ∧ t.walk (place ++ [name]) rest = .ok q) := by
  rw [walk]
  cases hplace : t.find? place with
  | none => simp
  | some node =>
    cases node with
    | file bytes => simp
    | directory =>
      dsimp only
      by_cases hdot : name = "."
      · simp [hdot]
      by_cases hdots : name = ".."
      · simp [hdots]
      by_cases hsize : maxNameBytes < name.utf8ByteSize
      · simp [hdot, hdots, hsize, Nat.not_le.mpr hsize]
      by_cases hentry : (t.find? (place ++ [name])).isSome = true
      · simp [hdot, hdots, hsize, hentry, Nat.not_lt.mp hsize]
      · simp [hdot, hdots, hsize, hentry]

theorem walk_append {xs ys : List String} {place q : List String} :
    t.walk place (xs ++ ys) = .ok q ↔ ∃ p, t.walk place xs = .ok p ∧ t.walk p ys = .ok q := by
  induction xs generalizing place with
  | nil => simp [walk]
  | cons name xs ih =>
    simp only [List.cons_append, walk_cons_eq_ok, ih]
    grind

theorem walk_mono (hdir : ∀ p, t.find? p = some .directory → u.find? p = some .directory)
    (hsome : ∀ p, (t.find? p).isSome → (u.find? p).isSome) {names place q : List String}
    (h : t.walk place names = .ok q) : u.walk place names = .ok q := by
  induction names generalizing place with
  | nil => exact h
  | cons name rest ih =>
    rw [walk_cons_eq_ok] at h ⊢
    obtain ⟨hplace, h⟩ := h
    refine ⟨hdir _ hplace, ?_⟩
    rcases h with ⟨hname, h⟩ | ⟨hname, h⟩ | ⟨hdot, hdots, hsize, hentry, h⟩
    · exact .inl ⟨hname, ih h⟩
    · exact .inr (.inl ⟨hname, ih h⟩)
    · exact .inr (.inr ⟨hdot, hdots, hsize, hsome _ hentry, ih h⟩)

end Walk

section Writing

variable {t : FileTree} {path : String} {place : List String}

theorem target_eq_ok (h : t.target path = .ok place) : ∃ start front name parent,
    t.split path = .ok (start, front ++ [name]) ∧ t.walk start front = .ok parent ∧
      t.find? parent = some .directory ∧ name ≠ "." ∧ name ≠ ".." ∧ path.endsWith "/" = false ∧
      name.utf8ByteSize ≤ maxNameBytes ∧ place = parent ++ [name] ∧
      t.find? place ≠ some .directory := by
  rw [target] at h
  cases hsplit : t.split path with
  | error e =>
    rw [hsplit] at h
    cases h
  | ok found =>
    obtain ⟨start, names⟩ := found
    rw [hsplit] at h
    cases hlast : names.getLast? with
    | none =>
      simp only [hlast, bind, Except.bind] at h
      cases h
    | some name =>
      obtain ⟨front, rfl⟩ := List.getLast?_eq_some_iff.mp hlast
      cases hwalk : t.walk start (front ++ ["."]) with
      | error e => simp [hwalk, bind, Except.bind] at h
      | ok parent =>
        simp only [hlast, List.dropLast_concat, hwalk, bind, Except.bind] at h
        by_cases hname : (name = "." || name = ".." || path.endsWith "/") = true
        · rw [if_pos hname] at h
          cases h
        by_cases hsize : maxNameBytes < name.utf8ByteSize
        · rw [if_neg hname, if_pos hsize] at h
          cases h
        rw [if_neg hname, if_neg hsize] at h
        obtain ⟨q, hfront, hdot⟩ := walk_append.mp hwalk
        obtain ⟨hparent, hstay⟩ := walk_cons_eq_ok.mp hdot
        obtain rfl : q = parent := by simpa [walk] using hstay
        simp only [Bool.or_eq_true, decide_eq_true_eq, not_or, Bool.not_eq_true] at hname
        obtain ⟨⟨hdot, hdots⟩, hslash⟩ := hname
        refine ⟨start, front, name, q, rfl, hfront, hparent, hdot, hdots, hslash,
          Nat.not_lt.mp hsize, ?_⟩
        split at h
        · cases h
        · rename_i hnode
          cases h
          exact ⟨rfl, hnode⟩

theorem split_put (bytes : ByteArray) : (t.put place bytes).split path = t.split path := by
  rw [split, split, home_put]

theorem read_put (h : t.target path = .ok place) (bytes : ByteArray) :
    (t.put place bytes).read path = .ok bytes := by
  obtain ⟨start, front, name, parent, hsplit, hwalk, hparent, hdot, hdots, hslash, hsize, rfl,
    hnode⟩ := target_eq_ok h
  have hkept {p : List String} (hp : p ≠ parent ++ [name]) :=
    find?_put_of_ne bytes hparent hp
  have hself : (t.put (parent ++ [name]) bytes).find? (parent ++ [name]) = some (.file bytes) :=
    find?_put_self bytes _
  have hdir (p : List String) (hp : t.find? p = some .directory) :
      (t.put (parent ++ [name]) bytes).find? p = some .directory := by
    rw [hkept fun heq ↦ hnode (heq ▸ hp), hp]
  have hsome (p : List String) (hp : (t.find? p).isSome) :
      ((t.put (parent ++ [name]) bytes).find? p).isSome := by
    by_cases heq : p = parent ++ [name]
    · rw [heq, hself]
      rfl
    · rwa [hkept heq]
  have hthere : (t.put (parent ++ [name]) bytes).walk start (front ++ [name]) =
      .ok (parent ++ [name]) := by
    refine walk_append.mpr ⟨parent, walk_mono hdir hsome hwalk, walk_cons_eq_ok.mpr
      ⟨hdir parent hparent, .inr (.inr ⟨hdot, hdots, hsize, by simp [hself], rfl⟩)⟩⟩
  simp [read, split_put, hsplit, hslash, hthere, hself, bind, Except.bind, pure, Except.pure]

theorem find?_put_of_target (h : t.target path = .ok place) (bytes : ByteArray) (p : List String)
    (hp : p ≠ place) : (t.put place bytes).find? p = t.find? p := by
  obtain ⟨start, front, name, parent, -, -, hparent, -, -, -, -, rfl, -⟩ := target_eq_ok h
  exact find?_put_of_ne bytes hparent hp

theorem source_of_read {bytes : ByteArray} (h : t.read path = .ok bytes) :
    ∃ place, t.source path = .ok place ∧ t.find? place = some (.file bytes) := by
  rw [read] at h
  cases hsplit : t.split path with
  | error e =>
    rw [hsplit] at h
    cases h
  | ok found =>
    obtain ⟨start, names⟩ := found
    simp only [hsplit, bind, Except.bind] at h
    split at h
    · cases h
    · rename_i place hwalk
      refine ⟨place, by rw [source, hsplit]; exact hwalk, ?_⟩
      split at h
      · rename_i file hfile
        cases h
        exact hfile
      · cases h
      · cases h

theorem access_read (t : FileTree) (path : String) :
    (access.read path).run t = (t.read path, t) := rfl

theorem access_write_of_ok (h : t.target path = .ok place) (bytes : ByteArray) :
    (access.write path bytes).run t = (.ok (), t.put place bytes) := by
  have hwrite : t.write path bytes = .ok (t.put place bytes) := by
    rw [write, h]
    rfl
  simp [access, hwrite]
  rfl

theorem access_write_of_error {e : FileError} (h : t.target path = .error e) (bytes : ByteArray) :
    (access.write path bytes).run t = (.error e, t) := by
  have hwrite : t.write path bytes = .error e := by
    rw [write, h]
    rfl
  simp [access, hwrite]
  rfl

theorem replaces_put (h : t.target path = .ok place) (bytes : ByteArray) :
    view.Replaces place bytes t (t.put place bytes) where
  file := find?_put_self bytes place
  others := find?_put_of_target h bytes
  home := home_put t place bytes

theorem allOrNothing_access : access.AllOrNothing view where
  read := by
    rintro path s r t ⟨⟩
    rfl
  read_of_ok := by
    intro path s bytes t h
    rw [access_read] at h
    obtain ⟨place, hsource, hfile⟩ := source_of_read (congrArg Prod.fst h)
    exact ⟨place, congrArg Except.toOption hsource, hfile⟩
  write_of_error := by
    intro path bytes s e t h
    cases htarget : s.target path with
    | error cause =>
      cases (access_write_of_error htarget bytes).symm.trans h
      rfl
    | ok place => cases (access_write_of_ok htarget bytes).symm.trans h
  write_of_ok := by
    intro path bytes s t h
    cases htarget : s.target path with
    | error cause => cases (access_write_of_error htarget bytes).symm.trans h
    | ok place =>
      cases (access_write_of_ok htarget bytes).symm.trans h
      refine ⟨place, congrArg Except.toOption htarget, replaces_put htarget bytes, ?_⟩
      rw [access_read, read_put htarget]

theorem keeps_of_target (h : t.target path = .ok place) : access.Keeps path t := by
  intro bytes
  refine ⟨t.put place bytes, access_write_of_ok h bytes, ?_⟩
  rw [access_read, read_put h]

end Writing

end FileTree

end BlockStream.Console
