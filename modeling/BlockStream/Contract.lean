namespace BlockStream

inductive Violation
  | fieldWidth (width : Nat)
  | chunkWidth (width : Nat)
  | unalignedOffset (bit : Nat)
  | patchRange (offset length : Nat)
  | byteIndex (index length : Nat)
  | byteRange (start stop length : Nat)
  | shiftAmount (places : Nat)
  | negative (minuend subtrahend : Nat)
  deriving DecidableEq, Repr

def Violation.message : Violation → String
  | .fieldWidth width => s!"fixed width overflow: {width} > 64"
  | .chunkWidth width => s!"vbr chunk width out of range: {width}"
  | .unalignedOffset bit => s!"byte offset requested at bit {bit}"
  | .patchRange offset length => s!"patch at byte {offset} out of bounds (len {length})"
  | .byteIndex index length => s!"byte {index} out of bounds (len {length})"
  | .byteRange start stop length => s!"bytes {start} to {stop} out of bounds (len {length})"
  | .shiftAmount places => s!"shift by {places} places"
  | .negative minuend subtrahend => s!"difference of {minuend} and {subtrahend} is negative"

/-- Why an operation stopped: an error of the kind `ε`, or a call it is not defined for. -/
inductive Fault (ε : Type)
  | error (cause : ε)
  | violation (broken : Violation)
  deriving DecidableEq, Repr

def difference {ε σ : Type} (minuend subtrahend : Nat) : EStateM (Fault ε) σ Nat :=
  if subtrahend ≤ minuend then return minuend - subtrahend
  else throw (.violation (.negative minuend subtrahend))

def slice {ε : Type} (bytes : ByteArray) (start stop : Nat) : Except (Fault ε) ByteArray :=
  if start ≤ stop ∧ stop ≤ bytes.size then .ok (bytes.extract start stop)
  else .error (.violation (.byteRange start stop bytes.size))

def finalState {ε σ α : Type} : EStateM.Result ε σ α → σ
  | .ok _ s => s
  | .error _ s => s

section Runs

variable {ε σ α β : Type} {x : EStateM ε σ α} {f : α → EStateM ε σ β} {s t u : σ}

theorem bind_of_ok {a : α} (h : x s = .ok a t) : (x >>= f) s = f a t := by
  change EStateM.bind x f s = _
  rw [EStateM.bind, h]

theorem bind_of_error {e : ε} (h : x s = .error e t) : (x >>= f) s = .error e t := by
  change EStateM.bind x f s = _
  rw [EStateM.bind, h]

theorem ok_of_bind {b : β} (h : (x >>= f) s = .ok b u) :
    ∃ a t, x s = .ok a t ∧ f a t = .ok b u := by
  cases hx : x s with
  | ok a t => exact ⟨a, t, rfl, (bind_of_ok hx).symm.trans h⟩
  | error e t => cases (bind_of_error hx).symm.trans h

theorem map_of_ok {g : α → β} {a : α} (h : x s = .ok a t) : (g <$> x) s = .ok (g a) t := by
  change EStateM.map g x s = _
  rw [EStateM.map, h]

theorem map_of_error {g : α → β} {e : ε} (h : x s = .error e t) : (g <$> x) s = .error e t := by
  change EStateM.map g x s = _
  rw [EStateM.map, h]

theorem mapM_cons_of_ok {g : α → EStateM ε σ β} {a : α} {as : List α} {b : β} {bs : List β}
    (h : g a s = .ok b t) (k : as.mapM g t = .ok bs u) :
    (a :: as).mapM g s = .ok (b :: bs) u := by
  rw [List.mapM_cons]
  exact (bind_of_ok h).trans ((bind_of_ok k).trans rfl)

theorem mapM_singleton_of_ok {g : α → EStateM ε σ β} {a : α} {b : β} (h : g a s = .ok b t) :
    [a].mapM g s = .ok [b] t := mapM_cons_of_ok h rfl

theorem finalState_of_ok {a : α} (h : x s = .ok a t) : finalState (x s) = t := by rw [h]; rfl

theorem finalState_of_error {e : ε} (h : x s = .error e t) : finalState (x s) = t := by rw [h]; rfl

theorem finalState_map (g : α → β) : finalState ((g <$> x) s) = finalState (x s) := by
  cases h : x s with
  | ok a t => rw [map_of_ok h]; rfl
  | error e t => rw [map_of_error h]; rfl

end Runs

end BlockStream
