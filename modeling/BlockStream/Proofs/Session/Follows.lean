import BlockStream.Proofs.Session.Emits

namespace BlockStream.Session

/-- The session that comes from `s` by writing the items of a draft, given in reverse, and then
opening its pending blocks and writing theirs. The scopes of the open blocks are in their slots. -/
inductive Leads (s : Session) (slots : Array (Option Scope)) (items : List Item) :
    List Pending → Session → Prop
  | base {t : Session} (emits : s.Emits t items.reverse) : Leads s slots items [] t
  | inner {p : Pending} {outer : List Pending} {t u v : Session} {scope : Scope}
      (leads : Leads s slots items outer t)
      (opened : Emit.beginBlock p.kind.id t = .ok scope u)
      (emits : u.Emits v p.items.reverse)
      (held : slots[p.slot]? = some (some scope)) : Leads s slots items (p :: outer) v

namespace Leads

variable {s t u : Session} {slots : Array (Option Scope)} {items : List Item}
  {pending : List Pending}

theorem tidy (h : Leads s slots items pending t) : t.out.Tidy := by
  cases h with
  | base emits => exact emits.adds.tidy
  | inner _ _ emits _ => exact emits.adds.tidy

theorem emits (h : Leads s slots items [] t) : s.Emits t items.reverse := by
  cases h with
  | base emits => exact emits

theorem mono {slots' : Array (Option Scope)} (h : Leads s slots items pending t)
    (hslots : ∀ p ∈ pending, slots'[p.slot]? = slots[p.slot]?) :
    Leads s slots' items pending t := by
  induction h with
  | base emits => exact .base emits
  | inner _ opened emits held ih =>
    have houter := ih fun q hq ↦ hslots q (List.mem_cons_of_mem _ hq)
    exact .inner houter opened emits ((hslots _ List.mem_cons_self).trans held)

end Leads

/-- The bench stands where the draft says, having come from the bench `start`. -/
structure Follows (start : Bench) (d : Draft) (b : Bench) : Prop where
  leads : Leads start.session b.slots d.items d.pending b.session
  taken : b.slots.size = d.slots
  kept : ∀ k < start.slots.size, b.slots[k]? = start.slots[k]?
  nested : d.pending.Pairwise fun inner outer ↦ outer.slot < inner.slot
  recent : ∀ p ∈ d.pending, start.slots.size ≤ p.slot ∧ p.slot < d.slots
  size_le : start.slots.size ≤ d.slots

namespace Follows

variable {start b : Bench} {d : Draft}

theorem refl (hb : b.session.out.Tidy) : Follows b { slots := b.slots.size } b where
  leads := .base (.refl hb)
  taken := rfl
  kept _ _ := rfl
  nested := .nil
  recent _ h := absurd h List.not_mem_nil
  size_le := Nat.le_refl _

theorem add (h : Follows start d b) {t : Session} {item : Item}
    (hemits : b.session.Emits t [item]) :
    Follows start (d.add item) ⟨t, b.slots⟩ := by
  obtain ⟨slots, pending, items⟩ := d
  obtain ⟨hleads, htaken, hkept, hnested, hrecent, hsize⟩ := h
  cases hleads with
  | base emits =>
    refine ⟨.base ?_, htaken, hkept, hnested, hrecent, hsize⟩
    change start.session.Emits t (item :: items).reverse
    rw [List.reverse_cons]
    exact emits.trans hemits
  | @inner p outer u v w scope leads opened emits held =>
    refine ⟨.inner leads opened ?_ held, htaken, hkept, ?_, ?_, hsize⟩
    · rw [List.reverse_cons]
      exact emits.trans hemits
    · rw [List.pairwise_cons] at hnested
      exact .cons hnested.1 hnested.2
    · intro q hq
      rcases List.mem_cons.mp hq with rfl | hq
      · exact hrecent p List.mem_cons_self
      · exact hrecent q (List.mem_cons_of_mem _ hq)

theorem openBlock (h : Follows start d b) {kind : BlockKind} {scope : Scope} {t : Session}
    (hopen : Emit.beginBlock kind.id b.session = .ok scope t) (ht : t.out.Tidy) :
    Follows start { d with slots := d.slots + 1, pending := ⟨d.slots, kind, []⟩ :: d.pending }
      ⟨t, b.slots.push (some scope)⟩ where
  leads := by
    have hslots : ∀ p ∈ d.pending, (b.slots.push (some scope))[p.slot]? = b.slots[p.slot]? := by
      intro p hp
      have hlt := (h.recent p hp).2
      rw [← h.taken] at hlt
      rw [Array.getElem?_push_lt hlt, Array.getElem?_eq_getElem hlt]
    refine .inner (h.leads.mono hslots) hopen (.refl ht) ?_
    rw [← h.taken]
    exact Array.getElem?_push_size
  taken := by
    rw [Array.size_push, h.taken]
  kept k hk := by
    have hlt : k < b.slots.size := by
      rw [h.taken]
      exact Nat.lt_of_lt_of_le hk h.size_le
    rw [Array.getElem?_push_lt hlt, ← Array.getElem?_eq_getElem hlt]
    exact h.kept k hk
  nested := .cons (fun p hp ↦ (h.recent p hp).2) h.nested
  recent p hp := by
    rcases List.mem_cons.mp hp with rfl | hp
    · exact ⟨h.size_le, Nat.lt_succ_self _⟩
    · exact ⟨(h.recent p hp).1, Nat.lt_succ_of_lt (h.recent p hp).2⟩
  size_le := Nat.le_succ_of_le h.size_le

theorem closeBlock (h : Follows start d b) {p : Pending} {outer : List Pending}
    (hpending : d.pending = p :: outer) {block : Item}
    (hblock : p.kind.blockOf? p.items.reverse = some block) :
    ∃ scope t, b.slots[p.slot]? = some (some scope) ∧ Emit.endBlock scope b.session = .ok () t ∧
      Follows start ({ d with pending := outer }.add block)
        ⟨t, b.slots.setIfInBounds p.slot none⟩ := by
  obtain ⟨slots, pending, items⟩ := d
  obtain ⟨hleads, htaken, hkept, hnested, hrecent, hsize⟩ := h
  dsimp only at hpending
  subst hpending
  cases hleads with
  | @inner _ _ s u _ scope leads opened emits held =>
    obtain ⟨t, hclose, hemits⟩ :=
      emits_of_endBlock leads.tidy (BlockKind.ofId?_id _) opened emits hblock
    refine ⟨scope, t, held, hclose, ?_⟩
    rw [List.pairwise_cons] at hnested
    have hother (k : Nat) (hk : k ≠ p.slot) :
        (b.slots.setIfInBounds p.slot none)[k]? = b.slots[k]? := by
      rw [Array.getElem?_setIfInBounds_ne hk.symm]
    have hfollows : Follows start ⟨slots, outer, items⟩
        ⟨s, b.slots.setIfInBounds p.slot none⟩ := by
      refine ⟨leads.mono fun q hq ↦ hother _ (Nat.ne_of_lt (hnested.1 q hq)), ?_, ?_, hnested.2,
        fun q hq ↦ hrecent q (List.mem_cons_of_mem _ hq), hsize⟩
      · rw [Array.size_setIfInBounds, htaken]
      · intro k hk
        have hne : k ≠ p.slot := Nat.ne_of_lt
          (Nat.lt_of_lt_of_le hk (hrecent p List.mem_cons_self).1)
        exact (hother k hne).trans (hkept k hk)
    exact hfollows.add hemits

theorem block (h : Follows start d b) {inner : Draft} {c : Bench} {t u : Session}
    (hbody : Follows ⟨t, b.slots⟩ inner c) {item : Item} (hemits : b.session.Emits u [item]) :
    Follows start ({ d with slots := inner.slots }.add item) ⟨u, c.slots⟩ := by
  have hle := hbody.size_le
  have hslots := hbody.kept
  dsimp only at hle hslots
  rw [h.taken] at hle hslots
  have hfollows : Follows start { d with slots := inner.slots } ⟨b.session, c.slots⟩ :=
    { leads := h.leads.mono fun p hp ↦ hslots _ (h.recent p hp).2
      taken := hbody.taken
      kept := fun k hk ↦ (hslots k (Nat.lt_of_lt_of_le hk h.size_le)).trans (h.kept k hk)
      nested := h.nested
      recent := fun p hp ↦ ⟨(h.recent p hp).1, Nat.lt_of_lt_of_le (h.recent p hp).2 hle⟩
      size_le := Nat.le_trans h.size_le hle }
  exact hfollows.add hemits

end Follows

def Succeeds (start : Bench) (d : Draft) (r : Report × Bench) : Prop :=
  (∃ answer, r.1.outcome = .ok answer) ∧ Follows start d r.2

section Steps

variable {start b : Bench} {d : Draft}

theorem succeeds_call {x : Emit Unit} {t : Session} (hx : x b.session = .ok () t)
    (h : Follows start d ⟨t, b.slots⟩) : Succeeds start d (b.call x) := by
  rw [Bench.call, Bench.perform_of_ok hx]
  exact ⟨⟨_, rfl⟩, h⟩

theorem succeeds_emits (h : Follows start d b) {x : Emit Unit} {item : Item}
    (hx : ∃ t, x b.session = .ok () t ∧ b.session.Emits t [item]) :
    Succeeds start (d.add item) (b.call x) := by
  obtain ⟨t, hrun, hemits⟩ := hx
  exact succeeds_call hrun (h.add hemits)

theorem succeeds_openBlock (h : Follows start d b) {id : UInt32} {d' : Draft}
    (hd : (Step.openBlock id).describe d = some d') : Succeeds start d' (b.openBlock id) := by
  obtain ⟨kind, hk, hd⟩ := Option.bind_eq_some_iff.mp hd
  cases hd
  obtain rfl := BlockKind.id_of_ofId? hk
  obtain ⟨scope, t, hopen, ht⟩ := Emit.exists_beginBlock h.leads.tidy hk
  rw [Bench.openBlock, Bench.perform_of_ok hopen]
  exact ⟨⟨_, rfl⟩, h.openBlock hopen ht⟩

theorem succeeds_closeBlock (h : Follows start d b) {slot : Nat} {d' : Draft}
    (hd : (Step.closeBlock slot).describe d = some d') :
    Succeeds start d' (b.closeBlock slot) := by
  rw [Step.describe] at hd
  split at hd
  · cases hd
  rename_i p outer hpending
  split at hd
  · rename_i hslot
    subst hslot
    obtain ⟨block, hblock, hd⟩ := Option.bind_eq_some_iff.mp hd
    cases hd
    obtain ⟨scope, t, hheld, hclose, hfollows⟩ := h.closeBlock hpending hblock
    rw [Bench.closeBlock, hheld]
    exact succeeds_call hclose hfollows
  · cases hd

theorem run_block {id : UInt32} {body : List Step} {scope : Scope} {t u : Session}
    (hopen : Emit.beginBlock id b.session = .ok scope t)
    (hbody : (runBody ⟨t, b.slots⟩ body).1 = none)
    (hclose : Emit.endBlock scope (runBody ⟨t, b.slots⟩ body).2.2.session = .ok () u) :
    (Step.block id body).run b =
      Bench.report ⟨u, (runBody ⟨t, b.slots⟩ body).2.2.slots⟩ (.ok .done)
        (some (runBody ⟨t, b.slots⟩ body).2.1) := by
  rw [Step.run, Bench.perform_of_ok hopen]
  dsimp only
  rw [hbody]
  dsimp only
  rw [Bench.perform_of_ok hclose]
  rfl

theorem succeeds_block (h : Follows start d b) {id : UInt32} {kind : BlockKind} {body : List Step}
    {scope : Scope} {t : Session} {inner : Draft} {item : Item}
    (hk : BlockKind.ofId? id = some kind) (hopen : Emit.beginBlock id b.session = .ok scope t)
    (hend : (runBody ⟨t, b.slots⟩ body).1 = none)
    (hbody : Follows ⟨t, b.slots⟩ inner (runBody ⟨t, b.slots⟩ body).2.2)
    (hclosed : inner.pending = []) (hitem : kind.blockOf? inner.items.reverse = some item) :
    Succeeds start ({ d with slots := inner.slots }.add item) ((Step.block id body).run b) := by
  have hleads := hbody.leads
  rw [hclosed] at hleads
  obtain ⟨u, hclose, hemits⟩ := emits_of_endBlock h.leads.tidy hk hopen hleads.emits hitem
  rw [run_block hopen hend hclose]
  exact ⟨⟨_, rfl⟩, h.block hbody hemits⟩

end Steps

mutual

theorem succeeds_run {start b : Bench} {d d' : Draft} (h : Follows start d b) : (step : Step) →
    step.describe d = some d' → Succeeds start d' (step.run b)
  | .openBlock id, hd => succeeds_openBlock h hd
  | .closeBlock slot, hd => succeeds_closeBlock h hd
  | .block id body, hd => by
    rw [Step.describe] at hd
    obtain ⟨kind, hk, hd⟩ := Option.bind_eq_some_iff.mp hd
    obtain ⟨inner, hinner, hd⟩ := Option.bind_eq_some_iff.mp hd
    split at hd
    · rename_i hempty
      obtain ⟨item, hitem, hd⟩ := Option.bind_eq_some_iff.mp hd
      cases hd
      obtain ⟨scope, t, hopen, ht⟩ := Emit.exists_beginBlock h.leads.tidy hk
      have hfresh : Follows ⟨t, b.slots⟩ { slots := d.slots } ⟨t, b.slots⟩ := h.taken ▸ .refl ht
      obtain ⟨hend, -, hbody⟩ := succeeds_runBody hfresh body hinner
      exact succeeds_block h hk hopen hend hbody (List.isEmpty_iff.mp hempty) hitem
    · cases hd
  | .blockInfo types, hd => by
    obtain ⟨block, hblock, hd⟩ := Option.bind_eq_some_iff.mp hd
    split at hd
    · cases hd
    · rename_i ht
      cases hd
      exact succeeds_emits h (emits_blockInfo h.leads.tidy ht hblock)
  | .define layout types, hd => by
    rw [Step.describe] at hd
    split at hd
    · cases hd
    · rename_i ht
      cases hd
      exact succeeds_emits h (emits_define h.leads.tidy layout ht)
  | .defineStandard id index types, hd => by
    obtain ⟨a, ha, hd⟩ := Option.bind_eq_some_iff.mp hd
    split at hd
    · cases hd
    · rename_i ht
      cases hd
      rw [Step.run, ha]
      exact succeeds_emits h (emits_define h.leads.tidy a.layout ht)
  | .record code operands, hd => by
    cases hd
    exact succeeds_emits h (emits_record h.leads.tidy code operands)
  | .buffer step, hd => by cases hd
  | .content, hd => by
    cases hd
    exact ⟨⟨_, rfl⟩, h⟩
termination_by structural step => step

theorem succeeds_runBody {start b : Bench} {d d' : Draft} (h : Follows start d b) :
    (steps : List Step) → describeAll d steps = some d' →
      (runBody b steps).1 = none ∧ (∀ r ∈ (runBody b steps).2.1, ∃ answer, r.outcome = .ok answer) ∧
        Follows start d' (runBody b steps).2.2
  | [], hd => by
    cases hd
    exact ⟨rfl, fun r hr ↦ absurd hr List.not_mem_nil, h⟩
  | step :: rest, hd => by
    obtain ⟨d₁, hstep, hrest⟩ := Option.bind_eq_some_iff.mp hd
    obtain ⟨⟨answer, hanswer⟩, hfollows⟩ := succeeds_run h step hstep
    have hnone : (step.run b).1.failure? = none := by
      rw [Report.failure?, hanswer]
    obtain ⟨hend, hreports, hlast⟩ := succeeds_runBody hfollows rest hrest
    rw [runBody_of_success hnone]
    refine ⟨hend, ?_, hlast⟩
    intro r hr
    rcases List.mem_cons.mp hr with rfl | hr
    · exact ⟨answer, hanswer⟩
    · exact hreports r hr
termination_by structural steps => steps

end

end BlockStream.Session
