import Bitmark.Script.CheckQueue
import Mathlib.Tactic.Abel

/-!
# What `Wait` returns

In every interleaving the counters count: `nTodo` the checks on the stack and in the batches, `nIdle`
and `nTotal` the threads. Hence when `Wait` returns every added check was taken once and nothing is
left over; and under a fair schedule it returns.
-/

namespace Bitmark

namespace CCheckQueue

open Finset

variable {τ ω : Type*} {check : τ → Bool}

/-- What the events of a round come to. -/
def added (events : List (Event τ ω)) : Multiset τ := (events.map Event.added).sum

def taken (events : List (Event τ ω)) : Multiset τ := (events.map Event.taken).sum

def processed (events : List (Event τ ω)) : Multiset τ := (events.map Event.processed).sum

@[simp]
theorem added_cons (e : Event τ ω) (events : List (Event τ ω)) :
    added (e :: events) = e.added + added events := List.sum_cons

@[simp]
theorem taken_cons (e : Event τ ω) (events : List (Event τ ω)) :
    taken (e :: events) = e.taken + taken events := List.sum_cons

@[simp]
theorem processed_cons (e : Event τ ω) (events : List (Event τ ω)) :
    processed (e :: events) = e.processed + processed events := List.sum_cons

/-- Some check was evaluated and failed. -/
def FailureIn (events : List (Event τ ω)) : Prop := ∃ t c, Event.eval t c false ∈ events

theorem failureIn_cons {e : Event τ ω} {events : List (Event τ ω)} :
    FailureIn (e :: events) ↔ (∃ t c, e = .eval t c false) ∨ FailureIn events := by
  simp only [FailureIn, List.mem_cons, exists_or, eq_comm]

/-- The events are what evaluating checks gives, and a check is skipped only after a failure. -/
structure Justified (check : τ → Bool) (events : List (Event τ ω)) : Prop where
  evals : ∀ t c ok, Event.eval t c ok ∈ events → ok = check c
  skips : ∀ later t c earlier, events = later ++ Event.skip t c :: earlier → FailureIn earlier

theorem justified_nil : Justified check ([] : List (Event τ ω)) where
  evals := by
    intro t c ok h
    cases h
  skips := by
    intro later t c earlier h
    cases later <;> cases h

theorem Justified.cons {events : List (Event τ ω)} (h : Justified check events) {e : Event τ ω}
    (heval : ∀ t c ok, e = .eval t c ok → ok = check c)
    (hskip : ∀ t c, e = .skip t c → FailureIn events) : Justified check (e :: events) where
  evals := by
    intro t c ok hmem
    rcases List.mem_cons.mp hmem with heq | hmem
    · exact heval t c ok heq.symm
    · exact h.evals t c ok hmem
  skips := by
    intro later t c earlier heq
    cases later with
    | nil =>
      obtain ⟨rfl, rfl⟩ := List.cons.inj heq
      exact hskip t c rfl
    | cons e' later => exact h.skips later t c earlier (List.cons.inj heq).2

/-- A check that was dealt with was evaluated or skipped. -/
theorem mem_processed {events : List (Event τ ω)} {c : τ} (h : c ∈ processed events) :
    ∃ t, (∃ ok, Event.eval t c ok ∈ events) ∨ Event.skip t c ∈ events := by
  induction events with
  | nil => simp [processed] at h
  | cons e events ih =>
    rw [processed_cons, Multiset.mem_add] at h
    rcases h with h | h
    · cases e with
      | eval t c' ok =>
        rw [Event.processed, Multiset.mem_singleton] at h
        subst h
        exact ⟨t, .inl ⟨ok, List.mem_cons_self⟩⟩
      | skip t c' =>
        rw [Event.processed, Multiset.mem_singleton] at h
        subst h
        exact ⟨t, .inr List.mem_cons_self⟩
      | add | take | ret => simp [Event.processed] at h
    · obtain ⟨t, ⟨ok, hmem⟩ | hmem⟩ := ih h
      · exact ⟨t, .inl ⟨ok, List.mem_cons_of_mem e hmem⟩⟩
      · exact ⟨t, .inr (List.mem_cons_of_mem e hmem)⟩

theorem eval_mem_processed {events : List (Event τ ω)} {t : Option ω} {c : τ} {ok : Bool}
    (h : Event.eval t c ok ∈ events) : c ∈ processed events := by
  have hle : Event.processed (.eval t c ok) ≤ processed events :=
    List.single_le_sum (fun _ _ ↦ Multiset.zero_le _) _ (List.mem_map_of_mem h)
  exact Multiset.mem_of_le hle (Multiset.mem_singleton_self c)

/-- When everything added was dealt with, the round failed exactly if some check fails. -/
theorem Justified.failureIn_iff {events : List (Event τ ω)} (h : Justified check events)
    (hall : processed events = added events) :
    FailureIn events ↔ ∃ c ∈ added events, check c = false := by
  constructor
  · rintro ⟨t, c, hc⟩
    refine ⟨c, hall ▸ eval_mem_processed hc, ?_⟩
    exact (h.evals t c false hc).symm
  · rintro ⟨c, hc, hfalse⟩
    obtain ⟨t, ⟨ok, hok⟩ | hskip⟩ := mem_processed (hall ▸ hc)
    · rw [h.evals t c ok hok, hfalse] at hok
      exact ⟨t, c, hok⟩
    · obtain ⟨later, earlier, rfl⟩ := List.append_of_mem hskip
      obtain ⟨t', c', hc'⟩ := h.skips later t c earlier rfl
      exact ⟨t', c', List.mem_append_right _ (List.mem_cons_of_mem _ hc')⟩

variable [Fintype ω]

/-- The counters count, and what was added and taken is on the stack and with the threads. -/
structure Counted (s : State τ ω) (events : List (Event τ ω)) : Prop where
  todo : s.q.nTodo = s.q.queue.length + ∑ t, (s.phase t).nNow
  idle : s.q.nIdle = ∑ t, (s.phase t).idle
  total : s.q.nTotal = ∑ t, (s.phase t).total
  added : added events = taken events + s.q.queue
  taken : taken events = processed events + ∑ t, (s.phase t).remaining
  failed : FailureIn events ↔ s.q.fAllOk = false ∨ ∃ t, (s.phase t).Failed
  batches : ∑ t, (s.phase t).nNow ≤ (CCheckQueue.taken events).card

variable {s : State τ ω} {events : List (Event τ ω)}

/-- Notifying threads changes no counter. -/
theorem Counted.notify (h : Counted s events) {phase : Option ω → Phase τ}
    (hphase : ∀ t, phase t = s.phase t ∨ phase t = (s.phase t).notify) :
    Counted ⟨s.q, phase⟩ events := by
  have hnow : ∀ t, (phase t).nNow = (s.phase t).nNow := by
    intro t
    rcases hphase t with ht | ht <;> simp [ht]
  have hidle : ∀ t, (phase t).idle = (s.phase t).idle := by
    intro t
    rcases hphase t with ht | ht <;> simp [ht]
  have htotal : ∀ t, (phase t).total = (s.phase t).total := by
    intro t
    rcases hphase t with ht | ht <;> simp [ht]
  have hremaining : ∀ t, (phase t).remaining = (s.phase t).remaining := by
    intro t
    rcases hphase t with ht | ht <;> simp [ht]
  have hfailed : ∀ t, (phase t).Failed ↔ (s.phase t).Failed := by
    intro t
    rcases hphase t with ht | ht <;> simp [ht]
  constructor
  · simpa only [hnow] using h.todo
  · simpa only [hidle] using h.idle
  · simpa only [htotal] using h.total
  · exact h.added
  · simpa only [hremaining] using h.taken
  · simpa only [hfailed] using h.failed
  · simpa only [hnow] using h.batches

theorem Counted.nNow_le (h : Counted s events) (t : Option ω) : (s.phase t).nNow ≤ s.q.nTodo := by
  have hle : (s.phase t).nNow ≤ ∑ u, (s.phase u).nNow :=
    single_le_sum (f := fun u ↦ (s.phase u).nNow) (fun _ _ ↦ Nat.zero_le _) (mem_univ t)
  rw [h.todo]
  omega

/-- The master waits for the last batches, and is notified when they are done. -/
def MasterWaits (s : State τ ω) : Prop :=
  ∀ b, s.phase none = .waiting b → s.q.queue = [] ∧ (b = false → s.q.nTodo ≠ 0)

/-- What holds between the critical sections. -/
structure Inv (check : τ → Bool) (s : State τ ω) (events : List (Event τ ω)) : Prop extends
    Counted s events where
  justified : Justified check events
  quit : s.q.fQuit = false
  busy : ∀ t, (s.phase t).Busy
  master : MasterWaits s

/-- What holds in the critical section of a thread, once it has cleaned up. -/
structure InSection (check : τ → Bool) (s : State τ ω) (t : Option ω)
    (events : List (Event τ ω)) : Prop extends Counted s events where
  justified : Justified check events
  quit : s.q.fQuit = false
  inside : s.phase t = .cleanedUp
  busy : ∀ u, u ≠ t → (s.phase u).Busy
  master : MasterWaits s

theorem inv_start (nBatchSize : Nat) :
    Inv check (State.start nBatchSize : State τ ω) [] where
  todo := by simp [State.start, new, Phase.nNow]
  idle := by simp [State.start, new, Phase.idle]
  total := by simp [State.start, new, Phase.total]
  added := by simp [State.start, new, CCheckQueue.added, CCheckQueue.taken]
  taken := by simp [State.start, CCheckQueue.taken, processed, Phase.remaining]
  failed := by simp [State.start, new, FailureIn, Phase.Failed]
  batches := by simp [State.start, Phase.nNow]
  justified := justified_nil
  quit := rfl
  busy := fun _ ↦ trivial
  master := by
    intro b h
    cases h

variable [DecidableEq ω] {t : Option ω}

/-- One thread moves, and the queue changes with it. -/
theorem Counted.move (h : Counted s events) {q : CCheckQueue τ} {p : Phase τ}
    {news : List (Event τ ω)}
    (htodo : q.nTodo + (s.phase t).nNow + s.q.queue.length = s.q.nTodo + p.nNow + q.queue.length)
    (hidle : q.nIdle + (s.phase t).idle = s.q.nIdle + p.idle)
    (htotal : q.nTotal + (s.phase t).total = s.q.nTotal + p.total)
    (hadded : CCheckQueue.added news = 0)
    (hqueue : CCheckQueue.taken news + q.queue = s.q.queue)
    (hwork : processed news + p.remaining = CCheckQueue.taken news + (s.phase t).remaining)
    (hfailed : FailureIn (news ++ events) ↔
      q.fAllOk = false ∨ p.Failed ∨ ∃ u, u ≠ t ∧ (s.phase u).Failed)
    (hbatch : p.nNow ≤ (s.phase t).nNow + (CCheckQueue.taken news).card) :
    Counted ⟨q, Function.update s.phase t p⟩ (news ++ events) where
  todo := by
    have hsum := Parties.sum_update_add (fun _ ↦ Phase.nNow) s.phase t p
    have hold := h.todo
    show q.nTodo = q.queue.length + ∑ u, (Function.update s.phase t p u).nNow
    omega
  idle := by
    have hsum := Parties.sum_update_add (fun _ ↦ Phase.idle) s.phase t p
    have hold := h.idle
    show q.nIdle = ∑ u, (Function.update s.phase t p u).idle
    omega
  total := by
    have hsum := Parties.sum_update_add (fun _ ↦ Phase.total) s.phase t p
    have hold := h.total
    show q.nTotal = ∑ u, (Function.update s.phase t p u).total
    omega
  added := by
    have hold := h.added
    simp only [CCheckQueue.added, CCheckQueue.taken, List.map_append, List.sum_append] at *
    rw [hadded, zero_add, hold, ← hqueue]
    abel
  taken := by
    have hsum := Parties.sum_update_add (fun _ ↦ Phase.remaining) s.phase t p
    have hold := h.taken
    simp only [processed, CCheckQueue.taken, List.map_append, List.sum_append] at *
    refine add_right_cancel (b := (s.phase t).remaining) ?_
    calc (news.map Event.taken).sum + (events.map Event.taken).sum + (s.phase t).remaining
        = (news.map Event.taken).sum + (s.phase t).remaining + (events.map Event.taken).sum := by
          abel
      _ = (news.map Event.processed).sum + (events.map Event.processed).sum +
            (∑ t, (s.phase t).remaining + p.remaining) := by
          rw [← hwork, hold]
          abel
      _ = _ := by
          rw [← hsum]
          abel
  failed := by
    rw [hfailed, Parties.exists_update_iff (P := fun _ ↦ Phase.Failed)]
  batches := by
    have hsum := Parties.sum_update_add (fun _ ↦ Phase.nNow) s.phase t p
    have hold := h.batches
    show ∑ u, (Function.update s.phase t p u).nNow ≤ _
    rw [CCheckQueue.taken, List.map_append, List.sum_append, Multiset.card_add]
    simp only [CCheckQueue.taken] at hold hbatch
    omega

omit [Fintype ω] in
theorem Notified.phase_eq {n : Nat} {phase phase' : Option ω → Phase τ}
    (h : Notified n phase phase') (t : Option ω) :
    phase' t = phase t ∨ t ≠ none ∧ phase' t = (phase t).notify := by
  match n, h with
  | 0, h => exact .inl (congrFun h t)
  | 1, .inl ⟨w, b, hw, h⟩ =>
    rw [h]
    by_cases ht : t = some w
    · subst ht
      exact .inr ⟨Option.some_ne_none w, Function.update_self ..⟩
    · exact .inl (Function.update_of_ne ht ..)
  | 1, .inr ⟨_, h⟩ => exact .inl (congrFun h t)
  | n + 2, ⟨hnone, hsome⟩ =>
    cases t with
    | none => exact .inl hnone
    | some w => exact .inr ⟨Option.some_ne_none w, hsome w⟩

/-- The master pushes a batch of checks. -/
theorem Inv.add (h : Inv check s events) (hmaster : s.phase none = .outside) {vChecks : List τ}
    {phase : Option ω → Phase τ} (hnotified : Notified vChecks.length s.phase phase) :
    Inv check ⟨s.q.add vChecks, phase⟩ (.add vChecks :: events) := by
  have hcounted : Counted ⟨s.q.add vChecks, s.phase⟩ (.add vChecks :: events) := by
    constructor
    · have hold := h.todo
      simp only [CCheckQueue.add, List.length_append, List.length_reverse]
      omega
    · exact h.idle
    · exact h.total
    · simp only [added_cons, taken_cons, h.added, Event.added, Event.taken, CCheckQueue.add,
        ← Multiset.coe_add, Multiset.coe_reverse, zero_add]
      abel
    · simpa only [taken_cons, processed_cons, Event.taken, Event.processed, zero_add] using h.taken
    · refine Iff.trans ?_ h.failed
      simp [failureIn_cons]
    · simpa only [taken_cons, Event.taken, zero_add] using h.batches
  refine { hcounted.notify fun t ↦ (hnotified.phase_eq t).imp_right And.right with
    justified := h.justified.cons (by simp) (by simp)
    quit := h.quit
    busy := ?_
    master := ?_ }
  · intro t
    rcases hnotified.phase_eq t with ht | ⟨-, ht⟩
    · show (phase t).Busy
      rw [ht]
      exact h.busy t
    · show (phase t).Busy
      rw [ht]
      exact (s.phase t).busy_notify.mpr (h.busy t)
  · intro b hb
    rcases hnotified.phase_eq none with ht | ⟨hne, -⟩
    · exact absurd (ht.symm.trans hb) (by simp [hmaster])
    · exact absurd rfl hne

omit [Fintype ω] in
theorem busy_update {p : Phase τ} (h : ∀ u, u ≠ t → (s.phase u).Busy) (hp : p.Busy) (u : Option ω) :
    (Function.update s.phase t p u).Busy := by
  by_cases hu : u = t
  · rw [hu, Function.update_self]
    exact hp
  · rw [Function.update_of_ne hu]
    exact h u hu

omit [Fintype ω] in
/-- A thread moves: the master with what it must hold to wait, or a worker that leaves the master
waiting for the same reason. -/
theorem MasterWaits.update (h : MasterWaits s) {q : CCheckQueue τ} {p : Phase τ}
    (hmaster : t = none → ∀ b, p = .waiting b → q.queue = [] ∧ (b = false → q.nTodo ≠ 0))
    (hworker : t ≠ none → (s.q.queue = [] → q.queue = []) ∧ (s.q.nTodo ≠ 0 → q.nTodo ≠ 0)) :
    MasterWaits ⟨q, Function.update s.phase t p⟩ := by
  intro b hb
  by_cases ht : t = none
  · subst ht
    exact hmaster rfl b ((Function.update_self (none : Option ω) p s.phase).symm.trans hb)
  · obtain ⟨hqueue, htodo⟩ := hworker ht
    obtain ⟨hempty, hne⟩ := h b ((Function.update_of_ne (Ne.symm ht) ..).symm.trans hb)
    exact ⟨hqueue hempty, fun hf ↦ htodo (hne hf)⟩

/-- A check of a batch is evaluated, or skipped after a failure. -/
theorem Inv.runCheck (h : Inv check s events) {c : τ} {vChecks : List τ} {nNow : Nat}
    {fOk fOk' : Bool} (hphase : s.phase t = .working (c :: vChecks) nNow fOk) {e : Event τ ω}
    (he : fOk = true ∧ fOk' = check c ∧ e = .eval t c fOk' ∨
      fOk = false ∧ fOk' = false ∧ e = .skip t c) :
    Inv check ⟨s.q, Function.update s.phase t (.working vChecks nNow fOk')⟩ (e :: events) := by
  have hold := h.failed
  rw [Parties.exists_iff_or t (P := fun _ ↦ Phase.Failed), hphase] at hold
  have hcounted : Counted ⟨s.q, Function.update s.phase t (.working vChecks nNow fOk')⟩
      ([e] ++ events) := by
    apply h.move
    · rw [hphase]
      rfl
    · rw [hphase]
      rfl
    · rw [hphase]
      rfl
    · rcases he with ⟨-, -, rfl⟩ | ⟨-, -, rfl⟩ <;> rfl
    · rcases he with ⟨-, -, rfl⟩ | ⟨-, -, rfl⟩ <;> exact zero_add _
    · rw [hphase]
      rcases he with ⟨-, -, rfl⟩ | ⟨-, -, rfl⟩ <;> rfl
    · rw [List.singleton_append, failureIn_cons, hold]
      rcases he with ⟨rfl, -, rfl⟩ | ⟨rfl, rfl, rfl⟩
      · simp [Phase.Failed]
        tauto
      · simp [Phase.Failed]
    · rw [hphase]
      exact Nat.le_add_right ..
  refine { hcounted with
    justified := ?_
    quit := h.quit
    busy := ?_
    master := ?_ }
  · apply h.justified.cons
    · rintro u d ok rfl
      rcases he with ⟨-, rfl, heq⟩ | ⟨-, -, heq⟩
      · injection heq with _ hd hok
        rw [hok, hd]
      · cases heq
    · rintro u d rfl
      rcases he with ⟨-, -, heq⟩ | ⟨rfl, -, -⟩
      · cases heq
      · exact hold.mpr (.inr (.inl rfl))
  · have hbusy := h.busy t
    rw [hphase] at hbusy
    exact busy_update (fun u _ ↦ h.busy u) hbusy
  · exact h.master.update (fun _ _ ↦ nofun) fun _ ↦ ⟨id, id⟩

omit [Fintype ω] in
theorem notifyMaster_apply (phase : Option ω → Phase τ) (t : Option ω) :
    notifyMaster phase t = phase t ∨ notifyMaster phase t = (phase t).notify := by
  by_cases ht : t = none
  · subst ht
    exact .inr (Function.update_self ..)
  · exact .inl (Function.update_of_ne ht ..)

/-- The clean-up leaves the stack as it is, and settles what the thread has done. -/
theorem Inv.cleanedUp (h : Inv check s events) (hremaining : (s.phase t).remaining = 0)
    {q : CCheckQueue τ} (hqueue : q.queue = s.q.queue)
    (htodo : q.nTodo + (s.phase t).nNow = s.q.nTodo)
    (hidle : q.nIdle + (s.phase t).idle = s.q.nIdle)
    (htotal : q.nTotal + (s.phase t).total = s.q.nTotal + 1)
    (hfailed : q.fAllOk = false ↔ s.q.fAllOk = false ∨ (s.phase t).Failed) :
    Counted ⟨q, Function.update s.phase t .cleanedUp⟩ events := by
  show Counted _ ([] ++ events)
  refine h.move ?_ ?_ ?_ rfl ?_ ?_ ?_ (Nat.zero_le _)
  · rw [hqueue, htodo]
    rfl
  · rw [hidle]
    exact (add_zero _).symm
  · exact htotal
  · rw [hqueue]
    exact zero_add _
  · rw [hremaining]
    rfl
  · rw [List.nil_append, h.failed, Parties.exists_iff_or t (P := fun _ ↦ Phase.Failed), hfailed,
      or_assoc]
    simp [Phase.cleanedUp, Phase.Failed]

/-- A thread enters the critical section for the first time, or from its wait. -/
theorem Inv.inSection (h : Inv check s events) {q : CCheckQueue τ} (hqueue : q.queue = s.q.queue)
    (hquit : q.fQuit = s.q.fQuit) (htodo : q.nTodo = s.q.nTodo)
    (hcounted : Counted ⟨q, Function.update s.phase t .cleanedUp⟩ events) :
    InSection check ⟨q, Function.update s.phase t .cleanedUp⟩ t events :=
  { hcounted with
    justified := h.justified
    quit := hquit.trans h.quit
    inside := Function.update_self ..
    busy := fun u hu ↦ by simpa only [Function.update_of_ne hu] using h.busy u
    master := h.master.update (fun _ _ ↦ nofun) fun _ ↦
      ⟨fun hq ↦ hqueue.trans hq, fun hn hz ↦ hn (htodo.symm.trans hz)⟩ }

/-- A thread enters the critical section with a batch behind it. It notifies the master when that
was the last one. -/
theorem Inv.begin_working (h : Inv check s events) {nNow : Nat} {fOk : Bool}
    (hp : s.phase t = .working [] nNow fOk) : InSection check (s.begin t) t events := by
  have hle := h.nNow_le t
  have hbusy := h.busy t
  rw [hp] at hle hbusy
  have hne : nNow ≠ 0 := Nat.ne_of_gt hbusy
  have hclean : s.q.cleanUp nNow fOk =
      { s.q with fAllOk := s.q.fAllOk && fOk, nTodo := s.q.nTodo - nNow } := by
    rw [cleanUp, if_pos hne]
  have hcounted : Counted ⟨s.q.cleanUp nNow fOk, Function.update s.phase t .cleanedUp⟩ events := by
    rw [hclean]
    apply h.cleanedUp
    · rw [hp]
      rfl
    · rfl
    · rw [hp]
      exact Nat.sub_add_cancel hle
    · rw [hp]
      exact add_zero _
    · rw [hp]
      rfl
    · rw [hp]
      cases s.q.fAllOk <;> simp [Phase.Failed]
  have hquit : (s.q.cleanUp nNow fOk).fQuit = false := by
    rw [hclean]
    exact h.quit
  have hqueue : (s.q.cleanUp nNow fOk).queue = s.q.queue := by rw [hclean]
  have hothers : ∀ u, u ≠ t → (Function.update s.phase t .cleanedUp u).Busy := by
    intro u hu
    rw [Function.update_of_ne hu]
    exact h.busy u
  by_cases hlast : (s.q.cleanUp nNow fOk).nTodo = 0 ∧ t ≠ none
  · have hbegin : s.begin t =
        ⟨s.q.cleanUp nNow fOk, notifyMaster (Function.update s.phase t .cleanedUp)⟩ := by
      rw [State.begin, hp]
      exact congrArg _ (if_pos ⟨hne, hlast⟩)
    rw [hbegin]
    refine { hcounted.notify (notifyMaster_apply _) with
      justified := h.justified
      quit := hquit
      inside := ?_
      busy := ?_
      master := ?_ }
    · exact (Function.update_of_ne hlast.2 ..).trans (Function.update_self ..)
    · intro u hu
      show (notifyMaster _ u).Busy
      rcases notifyMaster_apply (Function.update s.phase t .cleanedUp) u with hn | hn
      · rw [hn]
        exact hothers u hu
      · rw [hn, Phase.busy_notify]
        exact hothers u hu
    · intro b hb
      have hnone : (s.phase none).notify = .waiting b := by
        rw [← hb]
        show _ = notifyMaster (Function.update s.phase t .cleanedUp) none
        rw [notifyMaster, Function.update_self, Function.update_of_ne hlast.2.symm]
      obtain ⟨b', hb'⟩ := Phase.waiting_of_notify hnone
      refine ⟨hqueue.trans (h.master b' hb').1, ?_⟩
      rintro rfl
      exact absurd hnone (Phase.notify_ne_waiting_false _)
  · have hbegin : s.begin t = ⟨s.q.cleanUp nNow fOk, Function.update s.phase t .cleanedUp⟩ := by
      rw [State.begin, hp]
      exact congrArg _ (if_neg fun hn ↦ hlast hn.2)
    rw [hbegin]
    exact { hcounted with
      justified := h.justified
      quit := hquit
      inside := Function.update_self ..
      busy := hothers
      master := h.master.update (fun _ _ ↦ nofun) fun ht ↦
        ⟨fun hq ↦ hqueue.trans hq, fun _ hz ↦ hlast ⟨hz, ht⟩⟩ }

/-- A thread enters the critical section. -/
theorem Inv.begin (h : Inv check s events) (hremaining : (s.phase t).remaining = 0) :
    InSection check (s.begin t) t events := by
  cases hp : s.phase t with
  | outside =>
    rw [State.begin, hp]
    refine h.inSection rfl rfl rfl (h.cleanedUp hremaining rfl ?_ ?_ ?_ ?_)
    all_goals simp [hp, cleanUp, Phase.nNow, Phase.idle, Phase.total, Phase.Failed]
  | waiting b =>
    rw [State.begin, hp]
    refine h.inSection rfl rfl rfl (h.cleanedUp hremaining rfl ?_ ?_ ?_ ?_)
    all_goals simp [hp, Phase.nNow, Phase.idle, Phase.total, Phase.Failed]
  | working vChecks nNow fOk =>
    rw [hp, Phase.remaining, Multiset.coe_eq_zero] at hremaining
    rw [hremaining] at hp
    exact h.begin_working hp

omit [DecidableEq ω] in
/-- When nothing is to be done, no thread has a batch. -/
theorem InSection.idle_of_todo (h : InSection check s t events) (htodo : s.q.nTodo = 0)
    (u : Option ω) (hu : u ≠ t) : s.phase u = .outside ∨ ∃ b, s.phase u = .waiting b := by
  have hnow := h.nNow_le u
  have hbusy := h.busy u hu
  cases hp : s.phase u with
  | outside => exact .inl rfl
  | waiting b => exact .inr ⟨b, rfl⟩
  | working vChecks nNow fOk =>
    rw [hp] at hnow hbusy
    rw [htodo] at hnow
    exact absurd hbusy (Nat.not_lt.mpr hnow)

/-- The master leaves, and the books are closed. -/
theorem InSection.leave (h : InSection check s none events) (hqueue : s.q.queue = [])
    (htodo : s.q.nTodo = 0) :
    Inv check ⟨{ s.q with nTotal := s.q.nTotal - 1, fAllOk := true },
      Function.update s.phase none .outside⟩ [] := by
  have hrest : ∀ u, Function.update s.phase none .outside u = .outside ∨
      ∃ b, Function.update s.phase none .outside u = .waiting b := by
    intro u
    by_cases hu : u = none
    · rw [hu, Function.update_self]
      exact .inl rfl
    · rw [Function.update_of_ne hu]
      exact h.idle_of_todo htodo u hu
  have hnow : ∀ u, (Function.update s.phase none .outside u).nNow = 0 := by
    intro u
    rcases hrest u with hu | ⟨b, hu⟩ <;> rw [hu] <;> rfl
  have hremaining : ∀ u, (Function.update s.phase none .outside u).remaining = 0 := by
    intro u
    rcases hrest u with hu | ⟨b, hu⟩ <;> rw [hu] <;> rfl
  have hfailed : ∀ u, ¬ (Function.update s.phase none .outside u).Failed := by
    intro u
    rcases hrest u with hu | ⟨b, hu⟩ <;> rw [hu] <;> exact not_false
  constructor
  · constructor
    · refine h.todo.trans (congrArg _ (Eq.symm ?_))
      apply Parties.sum_update_of_eq (fun _ ↦ Phase.nNow)
      rw [h.inside]
      rfl
    · refine h.idle.trans (Eq.symm ?_)
      apply Parties.sum_update_of_eq (fun _ ↦ Phase.idle)
      rw [h.inside]
      rfl
    · have hsum := Parties.sum_update_add (fun _ ↦ Phase.total) s.phase none .outside
      rw [h.inside, ← h.total] at hsum
      show s.q.nTotal - 1 = ∑ u, (Function.update s.phase none .outside u).total
      rw [eq_sub_of_add_eq hsum]
      exact congrArg (· - 1) (add_zero _).symm
    · simp [added, taken, hqueue]
    · simp [taken, processed, hremaining]
    · simp [FailureIn, hfailed]
    · exact (sum_eq_zero fun u _ ↦ hnow u).le
  · exact justified_nil
  · exact h.quit
  · intro u
    show (Function.update s.phase none .outside u).Busy
    rcases hrest u with hu | ⟨b, hu⟩ <;> rw [hu] <;> trivial
  · intro b hb
    exact absurd ((Function.update_self none Phase.outside s.phase).symm.trans hb) nofun

omit [DecidableEq ω] in
/-- What the master has when it leaves: every check that was added was taken and dealt with. -/
theorem InSection.settled (h : InSection check s none events) (hqueue : s.q.queue = [])
    (htodo : s.q.nTodo = 0) :
    taken events = added events ∧ processed events = added events ∧
      (s.q.fAllOk = true ↔ ∀ c ∈ added events, check c = true) := by
  have hrest : ∀ u, (s.phase u).remaining = 0 ∧ ¬ (s.phase u).Failed := by
    intro u
    by_cases hu : u = none
    · rw [hu, h.inside]
      exact ⟨rfl, nofun⟩
    · rcases h.idle_of_todo htodo u hu with hp | ⟨b, hp⟩ <;> rw [hp] <;> exact ⟨rfl, not_false⟩
  have htaken : taken events = added events := by
    rw [h.added, hqueue, Multiset.coe_nil, add_zero]
  have hprocessed : processed events = added events := by
    rw [← htaken, h.taken, sum_eq_zero fun u _ ↦ (hrest u).1, add_zero]
  refine ⟨htaken, hprocessed, ?_⟩
  have hiff : s.q.fAllOk = false ↔ ∃ c ∈ added events, check c = false := by
    rw [← h.justified.failureIn_iff hprocessed, h.failed]
    exact (or_iff_left fun ⟨u, hu⟩ ↦ (hrest u).2 hu).symm
  have hnot := not_congr hiff
  push Not at hnot
  simpa only [ne_eq, Bool.not_eq_false] using hnot

/-- The rest of a critical section keeps the invariant. -/
theorem InSection.resume (h : InSection check s t events) :
    Inv check (s.resume t).1 (record (s.resume t).2 events) := by
  have hold := h.failed
  rw [Parties.exists_iff_or t (P := fun _ ↦ Phase.Failed), h.inside,
    or_iff_right Phase.not_failed_cleanedUp] at hold
  rcases s.resume_cases t with ⟨hqueue, hmaster, htodo, heq⟩ | ⟨hqueue, htodo, heq⟩ | ⟨hqueue, heq⟩
  · have ht : t = none := by simpa [h.quit] using hmaster
    subst ht
    rw [heq]
    exact h.leave hqueue htodo
  · rw [heq]
    have hcounted : Counted ⟨{ s.q with nIdle := s.q.nIdle + 1 },
        Function.update s.phase t (.waiting false)⟩ ([] ++ events) := by
      refine h.move ?_ ?_ ?_ rfl (zero_add _) ?_ ?_ (Nat.zero_le _)
      · rw [h.inside]
        rfl
      · rw [h.inside]
        exact add_zero _
      · rw [h.inside]
        rfl
      · rw [h.inside]
        rfl
      · rw [List.nil_append, hold]
        exact or_congr_right (or_iff_right nofun).symm
    exact { hcounted with
      justified := h.justified
      quit := h.quit
      busy := busy_update h.busy trivial
      master := h.master.update
        (fun ht _ _ ↦ ⟨hqueue, fun _ ↦ htodo (Option.isNone_iff_eq_none.mpr ht)⟩)
        fun _ ↦ ⟨id, id⟩ }
  · rw [heq]
    have hcounted : Counted ⟨{ s.q with queue := s.q.queue.drop s.q.batchSize },
        Function.update s.phase t
          (.working (s.q.queue.take s.q.batchSize) s.q.batchSize s.q.fAllOk)⟩
        ([.take t (s.q.queue.take s.q.batchSize)] ++ events) := by
      refine h.move ?_ ?_ ?_ rfl ?_ ?_ ?_ ?_
      · have hle := s.q.batchSize_le hqueue
        rw [h.inside, List.length_drop]
        simp only [Phase.nNow, Phase.cleanedUp]
        omega
      · rw [h.inside]
        rfl
      · rw [h.inside]
        rfl
      · rw [taken_cons, Event.taken]
        show (s.q.queue.take s.q.batchSize : Multiset τ) + 0 + s.q.queue.drop s.q.batchSize = _
        rw [add_zero, Multiset.coe_add, List.take_append_drop]
      · rw [h.inside, taken_cons, processed_cons]
        show (0 : Multiset τ) + 0 + s.q.queue.take s.q.batchSize =
          s.q.queue.take s.q.batchSize + 0 + 0
        rw [add_zero, add_zero, add_zero, zero_add]
      · rw [List.singleton_append, failureIn_cons, hold]
        simp [Phase.Failed]
      · rw [h.inside, taken_cons]
        simpa [Phase.nNow, Phase.cleanedUp, Event.taken, CCheckQueue.taken] using
          s.q.batchSize_le hqueue
    exact { hcounted with
      justified := h.justified.cons nofun nofun
      quit := h.quit
      busy := busy_update h.busy s.q.batchSize_pos
      master := h.master.update (fun _ _ ↦ nofun) fun _ ↦ ⟨fun hq ↦ absurd hq hqueue, id⟩ }

/-- A turn keeps the invariant. -/
theorem Inv.turn (h : Inv check s events) (t : Option ω) :
    Inv check (s.turn check t).1 (record (s.turn check t).2 events) := by
  by_cases hremaining : (s.phase t).remaining = 0
  · rw [State.turn_of_remaining hremaining]
    exact (h.begin hremaining).resume
  · obtain ⟨c, vChecks, nNow, fOk, hp⟩ := Phase.working_of_remaining_ne hremaining
    cases fOk with
    | true =>
      rw [State.turn_eval hp]
      exact h.runCheck hp (.inl ⟨rfl, rfl, rfl⟩)
    | false =>
      rw [State.turn_skip hp]
      exact h.runCheck hp (.inr ⟨rfl, rfl, rfl⟩)

theorem Reachable.inv {nBatchSize : Nat} (h : Reachable check nBatchSize s events) :
    Inv check s events := by
  induction h with
  | start => exact inv_start nBatchSize
  | add vChecks _ hmaster hnotified ih => exact ih.add hmaster hnotified
  | turn t _ ih => exact ih.turn t

omit [DecidableEq ω] in
/-- The counter stays below the number of checks of the round. -/
theorem Counted.nTodo_le (h : Counted s events) :
    s.q.nTodo ≤ (CCheckQueue.added events).card := by
  have hbatches := h.batches
  rw [h.todo, h.added, Multiset.card_add, Multiset.coe_card]
  omega

omit [DecidableEq ω] in
/-- Before the first check of a round is added the queue is as `CCheckQueueControl` asserts. -/
theorem Inv.unused (h : Inv check s events) (hadded : CCheckQueue.added events = 0) : s.q.Unused := by
  have htodo : s.q.nTodo = 0 := by
    have hle := h.nTodo_le
    rwa [hadded, Multiset.card_zero, Nat.le_zero] at hle
  have hphase : ∀ t, s.phase t = .outside ∨ ∃ b, s.phase t = .waiting b := by
    intro t
    have hnow := h.nNow_le t
    have hbusy := h.busy t
    cases hp : s.phase t with
    | outside => exact .inl rfl
    | waiting b => exact .inr ⟨b, rfl⟩
    | working vChecks nNow fOk =>
      rw [hp] at hnow hbusy
      rw [htodo] at hnow
      exact absurd hbusy (Nat.not_lt.mpr hnow)
  refine ⟨?_, htodo, ?_⟩
  · rw [h.total, h.idle]
    refine sum_congr rfl fun t _ ↦ ?_
    rcases hphase t with ht | ⟨b, ht⟩ <;> rw [ht] <;> rfl
  · by_contra hok
    obtain ⟨t, c, hc⟩ := h.failed.mpr (.inl (Bool.eq_false_of_not_eq_true hok))
    have hprocessed : processed events ≤ CCheckQueue.added events := by
      rw [h.added, h.taken, add_assoc]
      exact Multiset.le_add_right _ _
    rw [hadded, Multiset.le_zero] at hprocessed
    exact Multiset.notMem_zero c (hprocessed ▸ eval_mem_processed hc)

section Progress

/-- A thread that has a batch, or was notified. -/
def Ready (s : State τ ω) (t : Option ω) : Prop :=
  match s.phase t with
  | .working .. | .waiting true => True
  | _ => False

/-- What a thread has still to do by itself. -/
def weight : Phase τ → Nat
  | .outside | .waiting true => 1
  | .waiting false => 0
  | .working vChecks _ _ => vChecks.length + 2

/-- What there is still to do. -/
def work (s : State τ ω) : Nat := 4 * s.q.queue.length + ∑ t, weight (s.phase t)

theorem weight_notify_le (p : Phase τ) : weight p.notify ≤ weight p + 1 := by
  match p with
  | .outside | .waiting true | .waiting false | .working .. => simp [Phase.notify, weight]

theorem work_update (s : State τ ω) (t : Option ω) (q : CCheckQueue τ) (p : Phase τ) :
    work ⟨q, Function.update s.phase t p⟩ + 4 * s.q.queue.length + weight (s.phase t) =
      work s + 4 * q.queue.length + weight p := by
  have hsum := Parties.sum_update_add (fun _ ↦ weight) s.phase t p
  show 4 * q.queue.length + ∑ u, weight (Function.update s.phase t p u) + _ + _ = 4 * _ + _ + _ + _
  omega

theorem work_begin_outside {t : Option ω} (hp : s.phase t = .outside) :
    work (s.begin t) = work s + 1 := by
  have hwork := work_update s t (s.q.cleanUp 0 true) .cleanedUp
  rw [hp] at hwork
  rw [State.begin, hp]
  have hqueue : (s.q.cleanUp 0 true).queue = s.q.queue := rfl
  rw [hqueue] at hwork
  simp only [weight, Phase.cleanedUp, List.length_nil] at *
  omega

theorem work_begin_waiting {t : Option ω} {b : Bool} (hp : s.phase t = .waiting b) :
    work (s.begin t) + weight (.waiting b : Phase τ) = work s + 2 := by
  have hwork := work_update s t { s.q with nIdle := s.q.nIdle - 1 } .cleanedUp
  rw [hp] at hwork
  rw [State.begin, hp]
  simp only [weight, Phase.cleanedUp, List.length_nil] at *
  omega

/-- Notifying the master gives it one thing more to do. -/
theorem work_notifyMaster_le (s : State τ ω) : work ⟨s.q, notifyMaster s.phase⟩ ≤ work s + 1 := by
  have hwork := work_update s none s.q (s.phase none).notify
  have hle := weight_notify_le (s.phase none)
  rw [← notifyMaster] at hwork
  omega

theorem work_begin_working {t : Option ω} {nNow : Nat} {fOk : Bool}
    (hp : s.phase t = .working [] nNow fOk) : work (s.begin t) ≤ work s + 1 := by
  have hwork := work_update s t (s.q.cleanUp nNow fOk) .cleanedUp
  have hqueue : (s.q.cleanUp nNow fOk).queue = s.q.queue := by
    rw [cleanUp]
    split <;> rfl
  have hnotify := work_notifyMaster_le
    ⟨s.q.cleanUp nNow fOk, Function.update s.phase t .cleanedUp⟩
  rw [hp, hqueue] at hwork
  rw [State.begin, hp]
  simp only [weight, Phase.cleanedUp, List.length_nil] at *
  split <;> omega

/-- The rest of the critical section does two things at least, or three when it takes a batch. -/
theorem work_resume {t : Option ω} (hinside : s.phase t = .cleanedUp)
    (hret : ∀ fRet, (s.resume t).2 ≠ some (.ret fRet)) :
    work (s.resume t).1 + 3 ≤ work s ∨ work (s.resume t).1 + 2 = work s ∧
      (s.resume t).1 = ⟨{ s.q with nIdle := s.q.nIdle + 1 },
        Function.update s.phase t (.waiting false)⟩ := by
  rcases s.resume_cases t with ⟨-, -, -, heq⟩ | ⟨-, -, heq⟩ | ⟨hqueue, heq⟩
  · exact absurd (congrArg Prod.snd heq) (hret _)
  · have hwork := work_update s t { s.q with nIdle := s.q.nIdle + 1 } (.waiting false)
    have hstate := congrArg (fun r ↦ work r.1) heq
    rw [hinside] at hwork
    simp only [weight, Phase.cleanedUp, List.length_nil] at hwork hstate
    exact .inr ⟨by omega, congrArg Prod.fst heq⟩
  · have hwork := work_update s t { s.q with queue := s.q.queue.drop s.q.batchSize }
      (.working (s.q.queue.take s.q.batchSize) s.q.batchSize s.q.fAllOk)
    have hle := s.q.batchSize_le hqueue
    have hpos := s.q.batchSize_pos
    have hstate := congrArg (fun r ↦ work r.1) heq
    rw [hinside] at hwork
    simp only [weight, Phase.cleanedUp, List.length_nil, List.length_drop,
      List.length_take] at hwork hstate
    exact .inl (by omega)

/-- A turn from which `Wait` does not return gets something done, or is a wake-up for nothing. -/
theorem Inv.work_turn (h : Inv check s events) (t : Option ω)
    (hret : ∀ fRet, (s.turn check t).2 ≠ some (.ret fRet)) :
    work (s.turn check t).1 < work s ∨ (s.turn check t).1 = s ∧ ¬ Ready s t := by
  by_cases hremaining : (s.phase t).remaining = 0
  · have hinside := (h.begin hremaining).inside
    rw [State.turn_of_remaining hremaining] at hret ⊢
    match hp : s.phase t with
    | .outside =>
      have hbegin := work_begin_outside hp
      rcases work_resume hinside hret with hwork | ⟨hwork, -⟩ <;> exact .inl (by omega)
    | .waiting true =>
      have hbegin := work_begin_waiting hp
      rw [weight] at hbegin
      rcases work_resume hinside hret with hwork | ⟨hwork, -⟩ <;> exact .inl (by omega)
    | .waiting false =>
      have hbegin := work_begin_waiting hp
      rw [weight] at hbegin
      rcases work_resume hinside hret with hwork | ⟨-, heq⟩
      · exact .inl (by omega)
      · refine .inr ⟨heq.trans ?_, ?_⟩
        · rw [State.begin, hp]
          simp only [Function.update_idem, sub_add_cancel, ← hp, Function.update_eq_self]
        · rw [Ready, hp]
          exact not_false
    | .working vChecks nNow fOk =>
      rw [hp, Phase.remaining, Multiset.coe_eq_zero] at hremaining
      rw [hremaining] at hp
      have hbegin := work_begin_working hp
      rcases work_resume hinside hret with hwork | ⟨hwork, -⟩ <;> exact .inl (by omega)
  · obtain ⟨c, vChecks, nNow, fOk, hp⟩ := Phase.working_of_remaining_ne hremaining
    left
    have hwork : ∀ fOk', work ⟨s.q, Function.update s.phase t (.working vChecks nNow fOk')⟩ <
        work s := by
      intro fOk'
      have hsum := work_update s t s.q (.working vChecks nNow fOk')
      rw [hp] at hsum
      simp only [weight, List.length_cons] at hsum
      omega
    cases fOk with
    | true =>
      rw [State.turn_eval hp]
      exact hwork _
    | false =>
      rw [State.turn_skip hp]
      exact hwork _

omit [DecidableEq ω] in
/-- While the master is in `Wait`, some thread is ready. -/
theorem Inv.exists_ready (h : Inv check s events) (hmaster : s.phase none ≠ .outside) :
    ∃ t, Ready s t := by
  match hp : s.phase none with
  | .outside => exact absurd hp hmaster
  | .working .. => exact ⟨none, by rw [Ready, hp]; trivial⟩
  | .waiting true => exact ⟨none, by rw [Ready, hp]; trivial⟩
  | .waiting false =>
    -- what is still to do is in the batches
    obtain ⟨hqueue, htodo⟩ := h.master false hp
    have hsum : ∑ t, (s.phase t).nNow ≠ 0 := by
      have htotal := h.todo
      rw [hqueue, List.length_nil, zero_add] at htotal
      exact htotal ▸ htodo rfl
    obtain ⟨t, -, ht⟩ := exists_ne_zero_of_sum_ne_zero hsum
    refine ⟨t, ?_⟩
    cases hphase : s.phase t with
    | working => rw [Ready, hphase]; trivial
    | outside => exact absurd (by rw [hphase]; rfl) ht
    | waiting => exact absurd (by rw [hphase]; rfl) ht

omit [Fintype ω] in
theorem update_ne_outside (h : s.phase none ≠ .outside) {p : Phase τ} (hp : p ≠ .outside)
    (t : Option ω) : Function.update s.phase t p none ≠ .outside := by
  by_cases ht : none = t
  · rwa [← ht, Function.update_self]
  · rwa [Function.update_of_ne ht]

omit [Fintype ω] in
theorem begin_ne_outside (h : s.phase none ≠ .outside) (t : Option ω) :
    (s.begin t).phase none ≠ .outside := by
  have hcleanedUp : Function.update s.phase t .cleanedUp none ≠ .outside :=
    update_ne_outside h (by nofun) t
  cases hp : s.phase t with
  | outside =>
    rw [State.begin, hp]
    exact hcleanedUp
  | waiting =>
    rw [State.begin, hp]
    exact hcleanedUp
  | working vChecks nNow fOk =>
    rw [State.begin, hp]
    dsimp only
    split
    · rw [notifyMaster, Function.update_self, ne_eq, Phase.notify_eq_outside_iff]
      exact hcleanedUp
    · exact hcleanedUp

omit [Fintype ω] in
theorem resume_ne_outside (h : s.phase none ≠ .outside) {t : Option ω}
    (hret : ∀ fRet, (s.resume t).2 ≠ some (.ret fRet)) : (s.resume t).1.phase none ≠ .outside := by
  rcases s.resume_cases t with ⟨-, -, -, heq⟩ | ⟨-, -, heq⟩ | ⟨-, heq⟩
  · exact absurd (congrArg Prod.snd heq) (hret _)
  · rw [heq]
    exact update_ne_outside h (by nofun) t
  · rw [heq]
    exact update_ne_outside h (by nofun) t

omit [Fintype ω] in
/-- As long as `Wait` does not return, the master is in it. -/
theorem turn_ne_outside (h : s.phase none ≠ .outside) {t : Option ω}
    (hret : ∀ fRet, (s.turn check t).2 ≠ some (.ret fRet)) :
    (s.turn check t).1.phase none ≠ .outside := by
  by_cases hremaining : (s.phase t).remaining = 0
  · rw [State.turn_of_remaining hremaining] at hret ⊢
    exact resume_ne_outside (begin_ne_outside h t) hret
  · obtain ⟨c, vChecks, nNow, fOk, hp⟩ := Phase.working_of_remaining_ne hremaining
    cases fOk with
    | true =>
      rw [State.turn_eval hp]
      exact update_ne_outside h (by nofun) t
    | false =>
      rw [State.turn_skip hp]
      exact update_ne_outside h (by nofun) t

end Progress

/-- Only the master returns, from a critical section in which nothing is left. -/
theorem Inv.ret (h : Inv check s events) {t : Option ω} {fRet : Bool}
    (hret : (s.turn check t).2 = some (.ret fRet)) :
    t = none ∧ (s.begin t).q.queue = [] ∧ (s.begin t).q.nTodo = 0 ∧
      fRet = (s.begin t).q.fAllOk ∧ (s.phase t).remaining = 0 := by
  by_cases hremaining : (s.phase t).remaining = 0
  · have hsection := h.begin hremaining
    rw [State.turn_of_remaining hremaining] at hret
    rcases (s.begin t).resume_cases t with ⟨hqueue, hmaster, htodo, heq⟩ | ⟨-, -, heq⟩ | ⟨-, heq⟩
    · rw [heq] at hret
      refine ⟨?_, hqueue, htodo, ?_, hremaining⟩
      · simpa [hsection.quit] using hmaster
      · exact (Event.ret.inj (Option.some.inj hret)).symm
    · rw [heq] at hret
      cases hret
    · rw [heq] at hret
      cases hret
  · obtain ⟨c, vChecks, nNow, fOk, hp⟩ := Phase.working_of_remaining_ne hremaining
    cases fOk with
    | true =>
      rw [State.turn_eval hp] at hret
      cases hret
    | false =>
      rw [State.turn_skip hp] at hret
      cases hret

/-- The queue of script checks. A round ends when the master returns from `Wait`: then every check
added since it last returned was taken by one thread and was evaluated or skipped, the result is the
conjunction of all of them, and the queue is as it was at the start. A check is skipped only when one
that was evaluated before has failed. The master does return, as long as no thread that can go on is
left out for ever. -/
theorem wait_returns_conjunction {nBatchSize : Nat} (h : Reachable check nBatchSize s events) :
    (∀ t fRet, (s.turn check t).2 = some (.ret fRet) →
      t = none ∧ (fRet = true ↔ ∀ c ∈ added events, check c = true) ∧
        taken events = added events ∧ processed events = added events ∧
        (s.turn check t).1.q.queue = [] ∧ (s.turn check t).1.q.Unused) ∧
      (taken events ≤ added events ∧ processed events ≤ taken events ∧ Justified check events) ∧
      s.q.nTodo ≤ (added events).card ∧
      (s.phase none = .outside → added events = 0 → s.q.Unused) ∧
      (s.phase none ≠ .outside → ∀ sched, Parties.Fair (fun s t ↦ (s.turn check t).1) Ready s sched →
        ∃ n fRet, ((Parties.run (fun s t ↦ (s.turn check t).1) s sched n).turn check (sched n)).2 =
          some (.ret fRet)) := by
  have hinv := h.inv
  refine ⟨?_, ⟨?_, ?_, hinv.justified⟩, hinv.nTodo_le, fun _ hadded ↦ hinv.unused hadded, ?_⟩
  · intro t fRet hret
    obtain ⟨rfl, hqueue, htodo, rfl, hremaining⟩ := hinv.ret hret
    have hsection := hinv.begin hremaining
    obtain ⟨htaken, hprocessed, hiff⟩ := hsection.settled hqueue htodo
    have hinv' := hinv.turn none
    rw [hret] at hinv'
    refine ⟨rfl, hiff, htaken, hprocessed, ?_, hinv'.unused rfl⟩
    have hadded : (0 : Multiset τ) = 0 + (s.turn check none).1.q.queue := hinv'.added
    rwa [zero_add, eq_comm, Multiset.coe_eq_zero] at hadded
  · rw [hinv.added]
    exact Multiset.le_add_right _ _
  · rw [hinv.taken]
    exact Multiset.le_add_right _ _
  · intro hmaster sched hfair
    let Ok : State τ ω → Prop := fun s ↦ (∃ events, Inv check s events) ∧ s.phase none ≠ .outside
    have hok : Ok s := ⟨⟨events, hinv⟩, hmaster⟩
    let goal : State τ ω → Option ω → Prop := fun s t ↦
      ∃ fRet, (s.turn check t).2 = some (.ret fRet)
    show ∃ n, goal _ (sched n)
    refine Parties.exists_goal (w := work) ?_ ?_ hfair hok
    · rintro s t ⟨⟨events, hinv⟩, hmaster⟩ hgoal
      have hret : ∀ fRet, (s.turn check t).2 ≠ some (.ret fRet) := fun b hb ↦ hgoal ⟨b, hb⟩
      exact ⟨⟨⟨_, hinv.turn t⟩, turn_ne_outside hmaster hret⟩, hinv.work_turn t hret⟩
    · rintro s ⟨⟨events, hinv⟩, hmaster⟩
      exact hinv.exists_ready hmaster

/-- The phases when a worker has been notified before the master calls `Wait`. -/
def workerNotified : Option Unit → Phase Bool
  | none => .outside
  | some _ => .waiting true

/-- A worker waits, the master adds two checks and fails on the first; the other is skipped. -/
theorem wait_returns_conjunction_failing :
    ∃ (s : State Bool Unit) (events : List (Event Bool Unit)),
      (s.turn id none).2 = some (.ret false) ∧ added events = {true, false} ∧
        taken events = added events ∧ (s.turn id none).1.q.queue = [] ∧
        (s.turn id none).1.q.Unused := by
  have hwaiting : Reachable id 128 (((State.start 128).turn id (some ())).1 : State Bool Unit) [] :=
    .turn (some ()) .start
  have hadd : Reachable id 128 ⟨_, workerNotified⟩ [.add [true, false]] :=
    hwaiting.add [true, false] rfl ⟨rfl, fun _ ↦ rfl⟩
  have hdone := ((((hadd.turn none).turn none).turn none).turn none)
  obtain ⟨-, -, htaken, -, hqueue, hunused⟩ := (wait_returns_conjunction hdone).1 none false rfl
  exact ⟨_, _, rfl, rfl, htaken, hqueue, hunused⟩

end CCheckQueue

end Bitmark
