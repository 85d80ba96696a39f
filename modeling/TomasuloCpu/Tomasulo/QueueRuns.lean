/-
  TomasuloCpu.Tomasulo.QueueRuns — the load/store queue alone, over any inputs.

  A cycle plans with the cycle's flush bit, applies and latches. An accepted access is known
  by its cycle, and those that wait stand in a line (`waiting`): a flush empties it, the
  response to the first one takes it out. The queue holds that line, each access as its
  broadcasts have left it (`queue_waiting`). The environment answers only what was asked
  (`Answers`); then every access is sent once, from the front, and the result buffer is never
  overwritten (`queue_exact`). The queue of the CPU is such a queue (`queue_run`,
  `queue_answers`).
-/
import Mathlib.Data.List.Forall2
import TomasuloCpu.Lib.Line
import TomasuloCpu.Tomasulo.LoadStoreQueueProofs
import TomasuloCpu.Tomasulo.StationRuns
import TomasuloCpu.Tomasulo.Trace

namespace TomasuloCpu

namespace LoadStoreQueue

open LsqState ReservationStation

/-! ## The plan, by what happens -/

/-- What a plan without a flush decides. -/
inductive PlanEvent (s : LsqState) (observed : LsqObserveInputs) : LsqDecision → Prop
  | idle (hq : ∀ e, s.queue.head? = some e →
      matchingResponse e observed.memoryResponse = false ∧ maySend s e observed = false) :
      PlanEvent s observed (planClear s observed)
  | failed {e : LsqEntry} (hq : s.queue.head? = some e) (hm : matchingResponse e observed.memoryResponse = true)
      (hs : observed.memoryResponse.success = false) :
      PlanEvent s observed { planClear s observed with outputs := { memoryError := true } }
  | send {e : LsqEntry} (hq : s.queue.head? = some e) (hm : matchingResponse e observed.memoryResponse = false)
      (hs : maySend s e observed = true) :
      PlanEvent s observed { planClear s observed with
        outputs := { memoryRequest := makeMemoryRequest e }, markRequestSent := true }
  | loaded {e : LsqEntry} (hq : s.queue.head? = some e) (hm : matchingResponse e observed.memoryResponse = true)
      (hs : observed.memoryResponse.success = true) (ht : e.type = .load) :
      PlanEvent s observed { planClear s observed with
        completedLoadResult :=
          { tag := e.destination, result := extendLoadResult e.op observed.memoryResponse.value, valid := true }
        installLoadResult := true, removeHead := true }
  | stored {e : LsqEntry} (hq : s.queue.head? = some e) (hm : matchingResponse e observed.memoryResponse = true)
      (hs : observed.memoryResponse.success = true) (ht : e.type = .store) :
      PlanEvent s observed { planClear s observed with
        outputs := { storeCompletion := { tag := e.destination, valid := true } }, removeHead := true }

variable {s : LsqState}

theorem plan_event {observed : LsqObserveInputs} (hs : s.Wf) (hf : observed.flush = false)
    (hanswer : ∀ e, s.queue.head? = some e → matchingResponse e observed.memoryResponse = true → e.requestSent = true) :
    PlanEvent s observed (plan s observed) := by
  cases hq : s.queue with
  | nil =>
    rw [plan_nil hq hf]
    refine .idle fun e he => ?_
    rw [hq] at he
    cases he
  | cons e rest =>
    have he : s.queue.head? = some e := by rw [hq]; rfl
    rw [plan_cons hs hq hf]
    cases hm : matchingResponse e observed.memoryResponse with
    | true =>
      have hno : maySend s e observed = false := by simp [maySend, hanswer e he hm]
      rw [planSend, if_neg (by simp [hno]), planResponse, if_pos hm]
      cases hsucc : observed.memoryResponse.success with
      | false => exact .failed he hm hsucc
      | true =>
        cases ht : e.type with
        | load => exact .loaded he hm hsucc ht
        | store => exact .stored he hm hsucc ht
    | false =>
      rw [planResponse, if_neg (by simp [hm]), planSend]
      by_cases hmay : maySend s e observed = true
      · rw [if_pos hmay]
        exact .send he hm hmay
      · rw [if_neg hmay]
        refine .idle fun e' he' => ?_
        obtain rfl := Option.some.inj (he.symm.trans he')
        exact ⟨hm, by simpa using hmay⟩

theorem PlanEvent.serves {observed : LsqObserveInputs} {d : LsqDecision} (h : PlanEvent s observed d) : Serves s d := by
  have hpos : ∀ {e : LsqEntry}, s.queue.head? = some e → 0 < s.count := by
    intro e he
    obtain ⟨rest, hq⟩ := List.head?_eq_some_iff.mp he
    rw [← length_queue, hq]
    exact Nat.succ_pos _
  cases h with
  | idle => exact ⟨fun hc => (by cases hc), fun hc => (by cases hc), fun hc => by cases hc.1⟩
  | failed => exact ⟨fun hc => (by cases hc), fun hc => (by cases hc), fun hc => by cases hc.1⟩
  | send hq => exact ⟨fun hc => (by cases hc), fun _ => hpos hq, fun hc => by cases hc.1⟩
  | loaded hq => exact ⟨fun _ => hpos hq, fun hc => (by cases hc), fun hc => by cases hc.2⟩
  | stored hq => exact ⟨fun _ => hpos hq, fun hc => (by cases hc), fun hc => by cases hc.2⟩

/-! ## A run -/

/-- What a cycle brings; its flush bit is the one of both halves. -/
structure Signals where
  observe : LsqObserveInputs := {}
  inputs : LsqInputs := {}

def Signals.observed (x : Signals) : LsqObserveInputs := { x.observe with flush := x.inputs.flush }

/-- One cycle: `plan`, `apply` with the same flush, `latch`. -/
def cycle (m : LoadStoreQueue) (x : Signals) : Bool × LoadStoreQueue :=
  let (accepted, applied) := apply m x.inputs (plan m.cur x.observed)
  (accepted, applied.latch)

/-- The queue in front of cycle `n`. -/
def after (signals : Nat → Signals) : Nat → LoadStoreQueue
  | 0 => .reset resetState
  | n + 1 => (cycle (after signals n) (signals n)).2

variable (signals : Nat → Signals)

def state (n : Nat) : LsqState := (after signals n).cur
def decision (n : Nat) : LsqDecision := plan (state signals n) (signals n).observed
def flushes (n : Nat) : Bool := (signals n).inputs.flush

/-- The head leaves in cycle `n`. -/
def removes (n : Nat) : Bool := (decision signals n).removeHead

/-- The issue of cycle `n` is accepted. -/
def issues (n : Nat) : Bool := (cycle (after signals n) (signals n)).1

/-- The accepted accesses that wait in front of cycle `n`, by their cycles. -/
def waiting (n : Nat) : List Nat := Line.waiting (flushes signals) (removes signals) (issues signals) n

/-- The access accepted in cycle `k` has its request made in cycle `n`. -/
structure Requests (n k : Nat) : Prop where
  mark : (decision signals n).markRequestSent = true
  first : (waiting signals n).head? = some k

/-- A response is for an access that was sent. -/
def Answers : Prop :=
  ∀ n e, (state signals n).queue.head? = some e →
    matchingResponse e (signals n).observe.memoryResponse = true → e.requestSent = true

variable {signals} {n k j : Nat} {e : LsqEntry}

theorem state_succ : state signals (n + 1) = (step (state signals n) (signals n).inputs (decision signals n)).2 := rfl

theorem decision_flush (hf : flushes signals n = true) : decision signals n = {} := plan_flush _ hf

theorem decision_event (hw : (state signals n).Wf) (hanswer : Answers signals) (hf : flushes signals n = false) :
    PlanEvent (state signals n) (signals n).observed (decision signals n) :=
  plan_event hw hf fun e he hm => hanswer n e he hm

theorem state_wf (hanswer : Answers signals) (n : Nat) : (state signals n).Wf := by
  induction n with
  | zero => exact resetState_wf
  | succ n ih =>
    rw [state_succ]
    by_cases hf : flushes signals n = true
    · rw [step_flush _ hf]
      exact resetState_wf
    · rw [Bool.not_eq_true] at hf
      exact (step_spec ih _ hf (decision_event ih hanswer hf).serves).1

theorem issues_eq : issues signals n = (!flushes signals n && accepts (state signals n) (signals n).inputs) := by
  show (step (state signals n) (signals n).inputs (decision signals n)).1 = _
  unfold step flushes
  cases (signals n).inputs.flush with
  | true => rfl
  | false =>
    rw [if_neg (by decide)]
    cases accepts (state signals n) (signals n).inputs <;> rfl

theorem queue_succ (hanswer : Answers signals) (hf : flushes signals n = false) :
    (state signals (n + 1)).queue =
      (serve (decision signals n) ((state signals n).queue.map (wake (signals n).inputs.cdb)) ++
        if issues signals n then [queued (signals n).inputs.issueEntry] else []).map updateAddress := by
  have hw := state_wf hanswer n
  have haccepts : issues signals n = accepts (state signals n) (signals n).inputs := by
    rw [issues_eq, hf, Bool.not_false, Bool.true_and]
  rw [state_succ, (step_spec hw _ hf (decision_event hw hanswer hf).serves).2.1, haccepts]

/-! ## The accesses in the queue -/

variable (signals) in
def issued (k : Nat) : LsqEntry := (signals k).inputs.issueEntry

variable (signals) in
def cdb (k : Nat) : CdbMsg := (signals k).inputs.cdb

variable (signals) in
/-- The access accepted in cycle `k` as the queue has it in front of cycle `n`. -/
structure Held (n k : Nat) (e : LsqEntry) : Prop where
  before : k < n
  valid : e.valid = true
  type : e.type = (issued signals k).type
  op : e.op = (issued signals k).op
  destination : e.destination = (issued signals k).destination
  immediate : e.immediate = (issued signals k).immediate
  base : Heard (cdb signals) k n (issued signals k).base e.base
  data : e.type = .store → Heard (cdb signals) k n (issued signals k).storeData e.storeData
  given : (issued signals k).addressReady = true → e.addressReady = true ∧ e.address = (issued signals k).address
  /-- An address is there with the base. -/
  computed : (issued signals k).addressReady = false →
    e.addressReady = e.base.ready ∧ (e.base.ready = true → e.address = e.base.value + e.immediate)
  sent : e.requestSent = true ↔ ∃ j < n, Requests signals j k

theorem Requests.before (h : Requests signals n k) : k < n :=
  Line.waiting_lt (List.mem_of_mem_head? h.first)

/-- One more cycle in the queue. -/
theorem held_step (h : Held signals n k e) {e' : LsqEntry}
    (he : e' = wake (cdb signals n) e ∨ e' = sent (wake (cdb signals n) e))
    (hsent : e'.requestSent = true ↔ e.requestSent = true ∨ Requests signals n k) :
    Held signals (n + 1) k (updateAddress e') := by
  obtain ⟨hdest, hop, htype, himm, hreq, hbase, hdata⟩ := updateAddress_frame e'
  have hfields : e'.valid = e.valid ∧ e'.type = e.type ∧ e'.op = e.op ∧ e'.destination = e.destination ∧
      e'.immediate = e.immediate ∧ e'.base = wakeOperand e.base (cdb signals n) ∧
      e'.storeData = (if e.type = .store then wakeOperand e.storeData (cdb signals n) else e.storeData) ∧
      e'.address = e.address ∧ e'.addressReady = e.addressReady := by
    rcases he with rfl | rfl <;> exact ⟨rfl, rfl, rfl, rfl, rfl, rfl, rfl, rfl, rfl⟩
  obtain ⟨evalid, etype, eop, edest, eimm, ebase, edata, eaddr, eready⟩ := hfields
  refine ⟨Nat.lt_succ_of_lt h.before, ?_, ?_, ?_, ?_, ?_, ?_, ?_, ?_, ?_, ?_⟩
  · rw [updateAddress_valid, evalid, h.valid]
  · rw [htype, etype, h.type]
  · rw [hop, eop, h.op]
  · rw [hdest, edest, h.destination]
  · rw [himm, eimm, h.immediate]
  · rw [hbase, ebase]
    exact h.base.wake h.before
  · intro hstore
    rw [htype, etype] at hstore
    rw [hdata, edata, if_pos hstore]
    exact (h.data hstore).wake h.before
  · intro hg
    obtain ⟨hr, ha⟩ := h.given hg
    rw [updateAddress, if_pos (by simp [eready, hr]), eready, eaddr]
    exact ⟨hr, ha⟩
  · intro hg
    obtain ⟨hr, ha⟩ := h.computed hg
    unfold updateAddress
    by_cases hb : e.base.ready = true
    · -- the base was there before, so the address is
      have hsame : e'.base = e.base := by rw [ebase, wakeOperand_of_ready hb]
      rw [if_pos (by simp [eready, hr, hb]), eready, eaddr, hsame, eimm]
      exact ⟨hr, ha⟩
    · rw [Bool.not_eq_true] at hb
      rw [hb] at hr
      by_cases hb' : e'.base.ready = true
      · rw [if_neg (by simp [evalid, h.valid, eready, hr, hb'])]
        exact ⟨hb'.symm, fun _ => rfl⟩
      · rw [if_pos (by simp [hb']), eready, hr]
        exact ⟨by simpa using hb', fun hc => absurd hc hb'⟩
  · rw [hreq, hsent, h.sent]
    constructor
    · rintro (⟨j, hj, hr⟩ | hr)
      · exact ⟨j, Nat.lt_succ_of_lt hj, hr⟩
      · exact ⟨n, Nat.lt_succ_self n, hr⟩
    · rintro ⟨j, hj, hr⟩
      rcases Nat.lt_succ_iff_lt_or_eq.mp hj with hj | rfl
      · exact Or.inl ⟨j, hj, hr⟩
      · exact Or.inr hr

/-- An accepted access as it enters the queue. -/
theorem held_new (signals : Nat → Signals) (n : Nat) :
    Held signals (n + 1) n (updateAddress (queued (issued signals n))) := by
  obtain ⟨hdest, hop, htype, himm, hreq, hbase, hdata⟩ := updateAddress_frame (queued (issued signals n))
  refine ⟨Nat.lt_succ_self n, updateAddress_valid _, htype, hop, hdest, himm, ?_, ?_, ?_, ?_, ?_⟩
  · rw [hbase]
    exact Heard.start _ n _
  · intro _
    rw [hdata]
    exact Heard.start _ n _
  · intro hg
    rw [updateAddress, if_pos (by simp [queued, hg])]
    exact ⟨hg, rfl⟩
  · intro hg
    unfold updateAddress
    by_cases hb : (issued signals n).base.ready = true
    · rw [if_neg (by simp [queued, hg, hb])]
      exact ⟨hb.symm, fun _ => rfl⟩
    · rw [Bool.not_eq_true] at hb
      rw [if_pos (by simp [queued, hb])]
      refine ⟨hg.trans hb.symm, fun hc => ?_⟩
      have hc : (issued signals n).base.ready = true := hc
      rw [hb] at hc
      cases hc
  · rw [hreq]
    constructor
    · intro hc
      cases hc
    · rintro ⟨j, hj, hr⟩
      have := hr.before
      omega

theorem issues_flush (hf : flushes signals n = true) : issues signals n = false := by
  rw [issues_eq, hf, Bool.not_true, Bool.false_and]

/-- Behind the first one an access is only woken. -/
theorem held_rest {l : List Nat} {q : List LsqEntry} (hno : ∀ k ∈ l, ¬ Requests signals n k)
    (h : List.Forall₂ (Held signals n) l q) :
    List.Forall₂ (Held signals (n + 1)) l ((q.map (wake (cdb signals n))).map updateAddress) := by
  rw [List.map_map, List.forall₂_map_right_iff]
  refine ((List.forall₂_and_left l q).mpr ⟨hno, h⟩).imp fun k e hke => ?_
  exact held_step hke.2 (Or.inl rfl) ⟨Or.inl, fun hr => hr.resolve_right hke.1⟩

theorem held_serve {l : List Nat} {q : List LsqEntry}
    (hl : waiting signals n = l) (h : List.Forall₂ (Held signals n) l q) :
    List.Forall₂ (Held signals (n + 1)) (if removes signals n then l.tail else l)
      ((serve (decision signals n) (q.map (wake (cdb signals n)))).map updateAddress) := by
  unfold serve removes
  cases h with
  | nil => cases (decision signals n).removeHead <;> cases (decision signals n).markRequestSent <;> exact .nil
  | @cons k e l q hk hrest =>
    have hsorted : (waiting signals n).Pairwise (· < ·) := Line.waiting_sorted _ _ _ n
    rw [hl] at hsorted
    have hno : ∀ j ∈ l, ¬ Requests signals n j := by
      intro j hj hr
      have hfirst := hr.first
      rw [hl] at hfirst
      have heq : k = j := Option.some.inj hfirst
      exact absurd (List.rel_of_pairwise_cons hsorted hj) (by omega)
    by_cases hremove : (decision signals n).removeHead = true
    · rw [if_pos hremove, if_pos hremove]
      exact held_rest hno hrest
    · rw [if_neg hremove, if_neg hremove]
      by_cases hmark : (decision signals n).markRequestSent = true
      · rw [if_pos hmark]
        refine .cons (held_step hk (Or.inr rfl) ⟨fun _ => Or.inr ⟨hmark, by rw [hl]; rfl⟩, fun _ => rfl⟩) ?_
        exact held_rest hno hrest
      · rw [if_neg hmark]
        refine .cons (held_step hk (Or.inl rfl) ⟨Or.inl, fun hr => hr.resolve_right fun h => hmark h.mark⟩) ?_
        exact held_rest hno hrest

/-- The queue holds the accesses that wait, in their order. -/
theorem queue_waiting (hanswer : Answers signals) (n : Nat) :
    List.Forall₂ (Held signals n) (waiting signals n) (state signals n).queue := by
  induction n with
  | zero => exact .nil
  | succ n ih =>
    have hwaiting : waiting signals (n + 1) =
        (if flushes signals n then [] else if removes signals n then (waiting signals n).tail else waiting signals n) ++
          if issues signals n then [n] else [] := rfl
    by_cases hf : flushes signals n = true
    · rw [hwaiting, if_pos hf, issues_flush hf, state_succ, step_flush _ hf]
      exact .nil
    · rw [Bool.not_eq_true] at hf
      rw [hwaiting, hf, queue_succ hanswer hf, List.map_append]
      refine List.rel_append (held_serve rfl ih) ?_
      split
      · exact .cons (held_new signals n) .nil
      · exact .nil

theorem first_held (hanswer : Answers signals) (hk : (waiting signals n).head? = some k) :
    ∃ e, (state signals n).queue.head? = some e ∧ Held signals n k e := by
  have hall := queue_waiting hanswer n
  revert hk hall
  generalize waiting signals n = l
  generalize (state signals n).queue = q
  intro hk hall
  cases hall with
  | nil => cases hk
  | @cons j e l q hj _ =>
    obtain rfl : j = k := Option.some.inj hk
    exact ⟨e, rfl, hj⟩

theorem held_first (hanswer : Answers signals) (he : (state signals n).queue.head? = some e) :
    ∃ k, (waiting signals n).head? = some k ∧ Held signals n k e := by
  have hall := queue_waiting hanswer n
  revert he hall
  generalize waiting signals n = l
  generalize (state signals n).queue = q
  intro he hall
  cases hall with
  | nil => cases he
  | @cons k e' l q hk _ =>
    obtain rfl : e' = e := Option.some.inj he
    exact ⟨k, rfl, hk⟩

/-! ## Requests -/

/-- What has become of an operand is determined. -/
theorem heard_unique {bus : Nat → CdbMsg} {x y z : Operand} (hy : Heard bus k n x y) (hz : Heard bus k n x z) :
    y = z := by
  cases hy with
  | given h =>
    cases hz with
    | given => rfl
    | waiting h' => exact absurd (h.symm.trans h') (by decide)
    | woken h' => exact absurd (h.symm.trans h') (by decide)
  | waiting h hno =>
    cases hz with
    | given h' => exact absurd (h.symm.trans h') (by decide)
    | waiting => rfl
    | woken _ ht hlt hc => exact absurd hc (hno _ ht hlt)
  | @woken h t ht hlt hc hfirst =>
    cases hz with
    | given h' => exact absurd (h.symm.trans h') (by decide)
    | waiting _ hno => exact absurd hc (hno _ ht hlt)
    | @woken _ u hu hult hcu hfirstu =>
      have hle : t ≤ u := Nat.le_of_not_lt fun hc' => hfirst u hu hc' hcu
      have hge : u ≤ t := Nat.le_of_not_lt fun hc' => hfirstu t ht hc' hc
      obtain rfl : t = u := Nat.le_antisymm hle hge
      rfl

/-- An operand issued as `x` in cycle `k` is there in cycle `n`, with this value. -/
def Arrived (bus : Nat → CdbMsg) (k n : Nat) (x : Operand) (value : Word) : Prop :=
  ∃ y, Heard bus k n x y ∧ y.ready = true ∧ y.value = value

theorem arrived_iff {bus : Nat → CdbMsg} {x y : Operand} (h : Heard bus k n x y) {value : Word} :
    Arrived bus k n x value ↔ y.ready = true ∧ y.value = value := by
  constructor
  · rintro ⟨z, hz, hready⟩
    rw [heard_unique h hz]
    exact hready
  · exact fun hy => ⟨y, h, hy⟩

variable (signals) in
/-- The address of the access issued in cycle `k`, once it is known in cycle `n`. -/
def Addressed (n k : Nat) (address : Address) : Prop :=
  if (issued signals k).addressReady = true then address = (issued signals k).address
  else ∃ b, Arrived (cdb signals) k n (issued signals k).base b ∧ address = b + (issued signals k).immediate

variable (signals) in
/-- What else a request needs: a load the result buffer, a store its data and the commit. -/
def Permitted (n k : Nat) : Prop :=
  match (issued signals k).type with
  | .load => (state signals n).loadResult.valid = false ∨ (signals n).observe.loadResultGranted = true
  | .store =>
    (∃ value, Arrived (cdb signals) k n (issued signals k).storeData value) ∧
      (signals n).observe.storeRequest.valid = true ∧
      (signals n).observe.storeRequest.tag = (issued signals k).destination

theorem Held.addressed (h : Held signals n k e) {address : Address} :
    Addressed signals n k address ↔ e.addressReady = true ∧ e.address = address := by
  unfold Addressed
  cases hg : (issued signals k).addressReady with
  | true =>
    obtain ⟨hr, ha⟩ := h.given hg
    rw [if_pos rfl, hr, ha]
    exact ⟨fun heq => ⟨rfl, heq.symm⟩, fun heq => heq.2.symm⟩
  | false =>
    obtain ⟨hr, ha⟩ := h.computed hg
    rw [if_neg (by decide), hr, ← h.immediate]
    constructor
    · rintro ⟨b, hb, rfl⟩
      obtain ⟨hready, rfl⟩ := (arrived_iff h.base).mp hb
      exact ⟨hready, ha hready⟩
    · rintro ⟨hready, rfl⟩
      exact ⟨e.base.value, (arrived_iff h.base).mpr ⟨hready, rfl⟩, ha hready⟩

theorem plan_mark (hs : s.Wf) {inputs : LsqObserveInputs} :
    (plan s inputs).markRequestSent = true ↔
      inputs.flush = false ∧ ∃ e, s.queue.head? = some e ∧ maySend s e inputs = true := by
  by_cases hf : inputs.flush = true
  · simp [plan_flush _ hf, hf]
  · rw [Bool.not_eq_true] at hf
    cases hq : s.queue with
    | nil => simp [plan_nil hq hf, planClear]
    | cons e rest =>
      have hclear : (planResponse e inputs.memoryResponse (planClear s inputs)).markRequestSent = false := by
        unfold planResponse
        split
        · split
          · rfl
          · split <;> rfl
        · rfl
      rw [plan_cons hs hq hf, planSend]
      by_cases hmay : maySend s e inputs = true
      · simp [hmay, hf]
      · simp [hmay, hclear]

/-- When a request goes out. -/
theorem requests_iff (hanswer : Answers signals) : Requests signals n k ↔
    flushes signals n = false ∧ (waiting signals n).head? = some k ∧ (∀ j < n, ¬ Requests signals j k) ∧
      (∃ address, Addressed signals n k address) ∧ (signals n).observe.memoryAvailable = true ∧
      Permitted signals n k := by
  have hmark : Requests signals n k ↔ flushes signals n = false ∧ (waiting signals n).head? = some k ∧
      ∃ e, (state signals n).queue.head? = some e ∧ maySend (state signals n) e (signals n).observed = true := by
    constructor
    · rintro ⟨hmark, hfirst⟩
      obtain ⟨hf, hmay⟩ := (plan_mark (state_wf hanswer n)).mp hmark
      exact ⟨hf, hfirst, hmay⟩
    · rintro ⟨hf, hfirst, hmay⟩
      exact ⟨(plan_mark (state_wf hanswer n)).mpr ⟨hf, hmay⟩, hfirst⟩
  rw [hmark]
  refine and_congr_right fun _ => and_congr_right fun hfirst => ?_
  obtain ⟨e, he, hheld⟩ := first_held hanswer hfirst
  have hmay : (∃ e', (state signals n).queue.head? = some e' ∧
      maySend (state signals n) e' (signals n).observed = true) ↔
      maySend (state signals n) e (signals n).observed = true := by
    simp [he]
  have hsent : e.requestSent = false ↔ ∀ j < n, ¬ Requests signals j k := by
    rw [← Bool.not_eq_true, hheld.sent]
    simp
  have haddress : (∃ address, Addressed signals n k address) ↔ e.addressReady = true := by
    simp [hheld.addressed]
  rw [hmay, ← hsent, haddress, Permitted, ← hheld.type, ← hheld.destination]
  cases ht : e.type with
  | load => simp [maySend, hheld.valid, ht, Signals.observed, and_assoc]
  | store =>
    have hdata : (∃ value, Arrived (cdb signals) k n (issued signals k).storeData value) ↔
        e.storeData.ready = true := by
      simp [arrived_iff (hheld.data ht)]
    simp [maySend, hheld.valid, ht, Signals.observed, hdata, and_assoc]

/-- What the request says. -/
theorem request_of_requests (hanswer : Answers signals) (h : Requests signals n k) :
    ∃ address value, Addressed signals n k address ∧
      ((issued signals k).type = .store → Arrived (cdb signals) k n (issued signals k).storeData value) ∧
      (decision signals n).outputs.memoryRequest =
        { type := (issued signals k).type, width := memoryWidth (issued signals k).op, address := address
          tag := (issued signals k).destination, valid := true
          value := if (issued signals k).type = .store then value else 0 } := by
  obtain ⟨hf, hmay⟩ := (plan_mark (state_wf hanswer n)).mp h.mark
  obtain ⟨e, he, hheld⟩ := first_held hanswer h.first
  obtain ⟨e', he', hmay⟩ := hmay
  obtain rfl : e = e' := Option.some.inj (he.symm.trans he')
  obtain ⟨rest, hq⟩ := List.head?_eq_some_iff.mp he
  have hrequest : (decision signals n).outputs.memoryRequest = makeMemoryRequest e := by
    rw [decision, plan_cons (state_wf hanswer n) hq hf, planSend, if_pos hmay]
  simp only [maySend, Bool.and_eq_true] at hmay
  obtain ⟨⟨⟨-, hready⟩, -⟩, hkind⟩ := hmay
  refine ⟨e.address, e.storeData.value, hheld.addressed.mpr ⟨hready, rfl⟩, fun hstore => ?_, ?_⟩
  · rw [← hheld.type] at hstore
    rw [if_neg (by simp [hstore])] at hkind
    simp only [Bool.and_eq_true] at hkind
    exact (arrived_iff (hheld.data hstore)).mpr ⟨hkind.1.1, rfl⟩
  · rw [hrequest, makeMemoryRequest, ← hheld.type, ← hheld.op, ← hheld.destination]

/-- Requests go out in the order of issue, and never twice for one access. -/
theorem requests_sorted (hanswer : Answers signals) (hj : Requests signals j k) (hlt : j < n) {k' : Nat}
    (hn : Requests signals n k') : k < k' := by
  have hne : k ≠ k' := by
    rintro rfl
    exact ((requests_iff hanswer).mp hn).2.2.1 j hlt hj
  obtain ⟨rest, hfirst⟩ := List.head?_eq_some_iff.mp hj.first
  have hk : k < j := hj.before
  by_contra hle
  have hfront : k ≤ k' := Line.first_le hfirst (List.mem_of_mem_head? hn.first) (by omega) (Nat.le_of_lt hlt)
  omega

/-! ## Answers -/

variable (signals) in
/-- The response of cycle `n` is for the access issued in cycle `k`, the first one. -/
structure Answered (n k : Nat) : Prop where
  running : flushes signals n = false
  first : (waiting signals n).head? = some k
  valid : (signals n).observe.memoryResponse.valid = true
  known : (signals n).observe.memoryResponse.tag.valid = true
  tag : (signals n).observe.memoryResponse.tag = (issued signals k).destination
  kind : (signals n).observe.memoryResponse.isStore = decide ((issued signals k).type = .store)

theorem matchingResponse_iff {response : DataMemoryResponse} (hv : e.valid = true) :
    matchingResponse e response = true ↔ response.valid = true ∧ response.tag.valid = true ∧
      response.tag = e.destination ∧ response.isStore = decide (e.type = .store) := by
  unfold matchingResponse
  cases response.valid <;> cases response.tag.valid <;> simp [hv]
  by_cases htag : e.destination = response.tag
  · simp [htag, eq_comm]
  · simpa [htag] using fun hc : response.tag = e.destination => absurd hc.symm htag

theorem answered_iff (hanswer : Answers signals) : Answered signals n k ↔
    flushes signals n = false ∧ (waiting signals n).head? = some k ∧
      ∃ e, (state signals n).queue.head? = some e ∧ matchingResponse e (signals n).observe.memoryResponse = true := by
  constructor
  · intro h
    obtain ⟨e, he, hheld⟩ := first_held hanswer h.first
    refine ⟨h.running, h.first, e, he, (matchingResponse_iff hheld.valid).mpr ⟨h.valid, h.known, ?_, ?_⟩⟩
    · rw [h.tag, hheld.destination]
    · rw [h.kind, hheld.type]
  · rintro ⟨hf, hfirst, e, he, hm⟩
    obtain ⟨e', he', hheld⟩ := first_held hanswer hfirst
    obtain rfl : e = e' := Option.some.inj (he.symm.trans he')
    obtain ⟨hv, ht, htag, hkind⟩ := (matchingResponse_iff hheld.valid).mp hm
    exact ⟨hf, hfirst, hv, ht, by rw [htag, hheld.destination], by rw [hkind, hheld.type]⟩

/-- Only what was asked for is answered. -/
theorem Answered.requested (hanswer : Answers signals) (h : Answered signals n k) : ∃ j < n, Requests signals j k := by
  obtain ⟨-, -, e, he, hm⟩ := (answered_iff hanswer).mp h
  obtain ⟨e', he', hheld⟩ := first_held hanswer h.first
  obtain rfl : e = e' := Option.some.inj (he.symm.trans he')
  exact hheld.sent.mp (hanswer n e he hm)

theorem loadResult_succ (hanswer : Answers signals) (hf : flushes signals n = false) :
    (state signals (n + 1)).loadResult =
      if (decision signals n).installLoadResult then (decision signals n).completedLoadResult
      else if (decision signals n).clearLoadResult then {} else (state signals n).loadResult := by
  have hw := state_wf hanswer n
  rw [state_succ, (step_spec hw _ hf (decision_event hw hanswer hf).serves).2.2]

/-- A result is installed by an answer to a load, which leaves. -/
theorem install_answered (hanswer : Answers signals) (hi : (decision signals n).installLoadResult = true) :
    removes signals n = true ∧ ∃ k, Answered signals n k ∧ (issued signals k).type = .load := by
  by_cases hf : flushes signals n = true
  · rw [decision_flush hf] at hi
    cases hi
  · rw [Bool.not_eq_true] at hf
    have hevent := decision_event (state_wf hanswer n) hanswer hf
    unfold removes
    generalize decision signals n = d at hi hevent
    cases hevent with
    | idle => cases hi
    | failed => cases hi
    | send => cases hi
    | stored => cases hi
    | @loaded e hq hm _ ht =>
      obtain ⟨k, hk, hheld⟩ := held_first hanswer hq
      refine ⟨rfl, k, (answered_iff hanswer).mpr ⟨hf, hk, e, hq, hm⟩, ?_⟩
      rw [← hheld.type]
      exact ht

theorem mark_buffer (hanswer : Answers signals) (h : Requests signals n k) (hload : (issued signals k).type = .load) :
    (state signals (n + 1)).loadResult.valid = false := by
  obtain ⟨hf, -, -, -, -, hpermitted⟩ := (requests_iff hanswer).mp h
  have hevent := decision_event (state_wf hanswer n) hanswer hf
  have hmark := h.mark
  rw [Permitted, hload] at hpermitted
  rw [loadResult_succ hanswer hf]
  generalize decision signals n = d at hevent hmark
  cases hevent with
  | send =>
    show (if (planClear (state signals n) (signals n).observed).clearLoadResult = true then {}
      else (state signals n).loadResult).valid = false
    unfold planClear Signals.observed
    rcases hpermitted with hfree | hgrant
    · simp [hfree]
    · cases hv : (state signals n).loadResult.valid <;> simp [hgrant, hv]
  | idle => cases hmark
  | failed => cases hmark
  | loaded => cases hmark
  | stored => cases hmark

/-- From a load's request to its answer the result buffer is free. -/
theorem buffer_free (hanswer : Answers signals) (hj : Requests signals j k) (hload : (issued signals k).type = .load)
    (hlt : j < n) (hk : k ∈ waiting signals n) : (state signals n).loadResult.valid = false := by
  induction hlt with
  | refl => exact mark_buffer hanswer hj hload
  | @step n hlt ih =>
    have hjn : j < n := hlt
    have hkn : k < n := by
      have := hj.before
      omega
    have hmem : k ∈ waiting signals n := Line.waiting_of_le hk hkn (Nat.le_succ n)
    have hf : flushes signals n = false := by
      by_contra hc
      rw [Bool.not_eq_false] at hc
      have hwaiting : waiting signals (n + 1) = (if flushes signals n then [] else
          if removes signals n then (waiting signals n).tail else waiting signals n) ++
            if issues signals n then [n] else [] := rfl
      rw [hwaiting, if_pos hc, issues_flush hc] at hk
      cases hk
    have hremoves : ¬ removes signals n = true := by
      intro hc
      obtain ⟨rest, hfirst⟩ := List.head?_eq_some_iff.mp hj.first
      obtain ⟨rest', hfirst'⟩ := Line.first_stays hfirst hmem (Nat.le_of_lt hjn)
      exact Line.first_leaves hfirst' hc hk
    have hinstall : (decision signals n).installLoadResult = false := by
      by_contra hc
      exact hremoves (install_answered hanswer (by simpa using hc)).1
    rw [loadResult_succ hanswer hf, hinstall]
    cases (decision signals n).clearLoadResult with
    | true => rfl
    | false => exact ih hmem

/-- What an answer does. -/
theorem answered_outcome (hanswer : Answers signals) (h : Answered signals n k) :
    removes signals n = (signals n).observe.memoryResponse.success ∧
      (decision signals n).outputs.memoryError = !(signals n).observe.memoryResponse.success ∧
      (decision signals n).outputs.storeCompletion =
        (if (signals n).observe.memoryResponse.success = true ∧ (issued signals k).type = .store then
          { tag := (issued signals k).destination, valid := true } else {}) ∧
      ((signals n).observe.memoryResponse.success = true → (issued signals k).type = .load →
        (state signals (n + 1)).loadResult =
          { tag := (issued signals k).destination
            result := extendLoadResult (issued signals k).op (signals n).observe.memoryResponse.value
            valid := true }) := by
  have hevent := decision_event (state_wf hanswer n) hanswer h.running
  obtain ⟨-, -, e, he, hm⟩ := (answered_iff hanswer).mp h
  obtain ⟨e', he', hheld⟩ := first_held hanswer h.first
  obtain rfl : e = e' := Option.some.inj (he.symm.trans he')
  have hm : matchingResponse e (signals n).observed.memoryResponse = true := hm
  rw [loadResult_succ hanswer h.running, removes, ← hheld.type, ← hheld.destination, ← hheld.op]
  generalize decision signals n = d at hevent
  cases hevent with
  | idle hq =>
    rw [(hq e he).1] at hm
    cases hm
  | send hq hno =>
    obtain rfl := Option.some.inj (he.symm.trans hq)
    rw [hno] at hm
    cases hm
  | failed _ _ hs =>
    have hs : (signals n).observe.memoryResponse.success = false := hs
    simp [hs, planClear]
  | loaded hq _ hs ht =>
    obtain rfl := Option.some.inj (he.symm.trans hq)
    have hs : (signals n).observe.memoryResponse.success = true := hs
    simp [hs, ht, planClear, Signals.observed]
  | stored hq _ hs ht =>
    obtain rfl := Option.some.inj (he.symm.trans hq)
    have hs : (signals n).observe.memoryResponse.success = true := hs
    simp [hs, ht]

/-- Without an answer nothing leaves and nothing is reported. -/
theorem unanswered_outcome (hanswer : Answers signals) (hno : ∀ k, ¬ Answered signals n k) :
    removes signals n = false ∧ (decision signals n).outputs.memoryError = false ∧
      (decision signals n).outputs.storeCompletion = {} := by
  unfold removes
  by_cases hf : flushes signals n = true
  · rw [decision_flush hf]
    exact ⟨rfl, rfl, rfl⟩
  · rw [Bool.not_eq_true] at hf
    have hevent := decision_event (state_wf hanswer n) hanswer hf
    have hclear : ∀ {e}, (state signals n).queue.head? = some e →
        matchingResponse e (signals n).observed.memoryResponse = true → False := by
      intro e he hm
      obtain ⟨k, hk, -⟩ := held_first hanswer he
      exact hno k ((answered_iff hanswer).mpr ⟨hf, hk, e, he, hm⟩)
    generalize decision signals n = d at hevent
    cases hevent with
    | idle => exact ⟨rfl, rfl, rfl⟩
    | send => exact ⟨rfl, rfl, rfl⟩
    | failed hq hm => exact (hclear hq hm).elim
    | loaded hq hm => exact (hclear hq hm).elim
    | stored hq hm => exact (hclear hq hm).elim

theorem issues_iff (hanswer : Answers signals) : issues signals n = true ↔
    flushes signals n = false ∧ (signals n).inputs.issueValid = true ∧ (issued signals n).valid = true ∧
      (waiting signals n).length < kCapacity := by
  have hlength : (waiting signals n).length = (state signals n).count := by
    rw [← length_queue]
    exact (queue_waiting hanswer n).length_eq
  have hle : (state signals n).count ≤ kCapacity := (state_wf hanswer n).ring.count_le
  have hroom : full (state signals n) = false ↔ (waiting signals n).length < kCapacity := by
    rw [hlength, full, beq_eq_false_iff_ne]
    omega
  rw [issues_eq, accepts, issued, ← hroom]
  simp only [Bool.and_eq_true, Bool.not_eq_true', and_assoc]
  exact and_congr_right fun _ => and_congr_right fun _ => and_comm

/-- The queue over any inputs in which only what was asked for is answered. It holds the
    waiting accesses in their order, each as its broadcasts have left it, and takes one while
    there are fewer than 16. A request is the first one's, once its address is known, the
    memory is free and the kind allows it; requests go out in the order of issue, once each.
    An answer to the first one takes it out unless it failed, and a result that waits for the
    bus is never overwritten. -/
theorem queue_exact (hanswer : Answers signals) (n : Nat) :
    List.Forall₂ (Held signals n) (waiting signals n) (state signals n).queue ∧
      (issues signals n = true ↔ flushes signals n = false ∧ (signals n).inputs.issueValid = true ∧
        (issued signals n).valid = true ∧ (waiting signals n).length < kCapacity) ∧
      (∀ k, Requests signals n k ↔ flushes signals n = false ∧ (waiting signals n).head? = some k ∧
        (∀ j < n, ¬ Requests signals j k) ∧ (∃ address, Addressed signals n k address) ∧
        (signals n).observe.memoryAvailable = true ∧ Permitted signals n k) ∧
      (∀ k, Requests signals n k → ∃ address value, Addressed signals n k address ∧
        ((issued signals k).type = .store → Arrived (cdb signals) k n (issued signals k).storeData value) ∧
        (decision signals n).outputs.memoryRequest =
          { type := (issued signals k).type, width := memoryWidth (issued signals k).op, address := address
            tag := (issued signals k).destination, valid := true
            value := if (issued signals k).type = .store then value else 0 }) ∧
      (∀ j k k', j < n → Requests signals j k → Requests signals n k' → k < k') ∧
      (∀ k, Answered signals n k → (∃ j < n, Requests signals j k) ∧
        removes signals n = (signals n).observe.memoryResponse.success ∧
        (decision signals n).outputs.memoryError = !(signals n).observe.memoryResponse.success ∧
        (decision signals n).outputs.storeCompletion =
          (if (signals n).observe.memoryResponse.success = true ∧ (issued signals k).type = .store then
            { tag := (issued signals k).destination, valid := true } else {}) ∧
        ((signals n).observe.memoryResponse.success = true → (issued signals k).type = .load →
          (state signals (n + 1)).loadResult =
            { tag := (issued signals k).destination
              result := extendLoadResult (issued signals k).op (signals n).observe.memoryResponse.value
              valid := true })) ∧
      ((∀ k, ¬ Answered signals n k) → removes signals n = false ∧
        (decision signals n).outputs.memoryError = false ∧ (decision signals n).outputs.storeCompletion = {}) ∧
      (flushes signals n = false → (state signals n).loadResult.valid = true →
        (signals n).observe.loadResultGranted = false →
        (state signals (n + 1)).loadResult = (state signals n).loadResult) := by
  refine ⟨queue_waiting hanswer n, issues_iff hanswer, fun k => requests_iff hanswer,
    fun k => request_of_requests hanswer, fun j k k' hlt hj hn => requests_sorted hanswer hj hlt hn,
    fun k h => ⟨h.requested hanswer, answered_outcome hanswer h⟩, unanswered_outcome hanswer, ?_⟩
  intro hf hv hg
  have hinstall : (decision signals n).installLoadResult = false := by
    by_contra hc
    obtain ⟨-, k, hk, hload⟩ := install_answered hanswer (by simpa using hc)
    obtain ⟨j, hlt, hj⟩ := hk.requested hanswer
    rw [buffer_free hanswer hj hload hlt (List.mem_of_mem_head? hk.first)] at hv
    cases hv
  have hclear : (decision signals n).clearLoadResult = false := by
    have hevent := decision_event (state_wf hanswer n) hanswer hf
    have hplan : (planClear (state signals n) (signals n).observed).clearLoadResult = false := by
      simp [planClear, Signals.observed, hg]
    generalize decision signals n = d at hevent
    cases hevent <;> exact hplan
  rw [loadResult_succ hanswer hf, hinstall, hclear]
  rfl

/-- A byte load accepted in cycle 0, and the answer in cycle 2. -/
def byteLoad (n : Nat) : Signals where
  observe :=
    { memoryAvailable := true
      memoryResponse :=
        if n = 2 then { tag := { index := 3, generation := 1, valid := true }, value := 0x80, success := true, valid := true }
        else {} }
  inputs :=
    { issueEntry :=
        { op := .lb, destination := { index := 3, generation := 1, valid := true }
          base := { value := 16, ready := true }, immediate := 4, valid := true }
      issueValid := n == 0 }

theorem byteLoad_answers : Answers byteLoad := by
  intro n e he hm
  by_cases hn : n = 2
  · subst hn
    have hhead : (state byteLoad 2).queue.head?.map (·.requestSent) = some true := by decide
    rw [he] at hhead
    exact Option.some.inj hhead
  · have hnone : (byteLoad n).observe.memoryResponse = {} := if_neg hn
    rw [hnone] at hm
    simp [matchingResponse] at hm

theorem queue_exact_byteLoad : (∃ j < 2, Requests byteLoad j 0) ∧ (state byteLoad 3).loadResult =
    { tag := { index := 3, generation := 1, valid := true }, result := 0xFFFFFF80, valid := true } := by
  obtain ⟨-, -, -, -, -, hanswered, -⟩ := queue_exact byteLoad_answers 2
  obtain ⟨hrequested, -, -, -, hresult⟩ := hanswered 0 ⟨rfl, by decide, rfl, rfl, rfl, rfl⟩
  exact ⟨hrequested, (hresult rfl rfl).trans (by decide)⟩

end LoadStoreQueue

/-! ## The queue of the CPU -/

namespace Core

variable {tr : Nat → Core} {n : Nat}

/-- What the cycles of a run bring to its queue. -/
def queueSignals (tr : Nat → Core) (n : Nat) : LoadStoreQueue.Signals :=
  if (tr n).status = .running then
    { observe := (tr n).observe.lsq, inputs := lsqInputs (tr n).observe (tr n).outs }
  else {}

theorem queue_run (h : IsRun tr) (hrun : ∀ m < n, (tr m).status = .running) :
    LoadStoreQueue.state (queueSignals tr) n = (tr n).lsq := by
  induction n with
  | zero =>
    obtain ⟨counters, input, h0⟩ := h.start
    rw [h0]
    rfl
  | succ n ih =>
    have hlast : (tr n).status = .running := hrun n (Nat.lt_succ_self n)
    have hsignals : queueSignals tr n =
        { observe := (tr n).observe.lsq, inputs := lsqInputs (tr n).observe (tr n).outs } := if_pos hlast
    have hdecision : LoadStoreQueue.decision (queueSignals tr) n = (tr n).lsqDecision := by
      rw [LoadStoreQueue.decision, ih fun m hm => hrun m (Nat.lt_succ_of_lt hm), hsignals]
      rfl
    rw [LoadStoreQueue.state_succ, hdecision, ih fun m hm => hrun m (Nat.lt_succ_of_lt hm), hsignals, h.step,
      tick_eq hlast]

theorem queue_answers (h : IsRun tr) : LoadStoreQueue.Answers (queueSignals tr) := by
  intro n e he hm
  by_cases hr : (tr n).status = .running
  · have hbefore : ∀ m < n, (tr m).status = .running := by
      intro m hlt
      by_contra hc
      rw [h.frozen hc (Nat.le_of_lt hlt)] at hr
      exact hc hr
    rw [queue_run h hbefore] at he
    obtain ⟨rest, hq⟩ := List.head?_eq_some_iff.mp he
    have hresponse : (queueSignals tr n).observe.memoryResponse = (tr n).port.response := by
      rw [queueSignals, if_pos hr]
      rfl
    rw [hresponse] at hm
    exact ((h.inv n).matched hq hm).2.2
  · have hquiet : (queueSignals tr n).observe.memoryResponse = {} := by rw [queueSignals, if_neg hr]
    rw [hquiet] at hm
    simp [LoadStoreQueue.matchingResponse] at hm

end Core

end TomasuloCpu
