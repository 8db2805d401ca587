import Defing.Core.Model
import Mathlib.Order.Bounds.Basic

/-!
# The throttle of logins

Failures are counted by key in windows that begin with the first of them. A
request looks at the counter before it verifies its password and counts its
failure after that, so requests that are under way together may take the
counter past the limit, by as many as they are and no more.
-/

namespace Defing

open Std (ExtTreeMap)

structure LoginThrottle where
  inner : StrMap (Nat × Nat)
  window : Nat
  maxFailures : Nat

namespace LoginThrottle

def new : LoginThrottle := { inner := ∅, window := 600 * 10 ^ 9, maxFailures := 5 }

def blocked (t : LoginThrottle) (key : String) (now : Nat) : Bool × LoginThrottle :=
  match t.inner[key]? with
  | some (count, last) =>
    if now - last ≥ t.window then (false, { t with inner := t.inner.erase key }) else (decide (count ≥ t.maxFailures), t)
  | none => (false, t)

def recordFailure (t : LoginThrottle) (key : String) (now : Nat) : LoginThrottle :=
  match t.inner[key]? with
  | some (count, last) =>
    if now - last ≥ t.window then { t with inner := t.inner.insert key (1, now) }
    else { t with inner := t.inner.insert key (count + 1, last) }
  | none => { t with inner := t.inner.insert key (1, now) }

def reset (t : LoginThrottle) (key : String) : LoginThrottle := { t with inner := t.inner.erase key }

end LoginThrottle

/-! ## Requests under way -/

inductive Verdict
  | verifying | wrong | right
  deriving DecidableEq, Repr

/-- What came of the requests: failures that were counted and logins that succeeded, the last one first. -/
inductive LoginEvent
  | failed (key : String) (at_ : Nat)
  | succeeded (key : String)
  deriving DecidableEq, Repr

structure ThrottleState where
  throttle : LoginThrottle
  now : Nat
  flights : List (String × Verdict)
  history : List LoginEvent

def ThrottleState.start (t : LoginThrottle) : ThrottleState := { throttle := t, now := 0, flights := [], history := [] }

/-- The atomic steps of `login`, `ga_login`, `pa_login` and `change_my_password`. -/
inductive ThrottleStep : ThrottleState → ThrottleState → Prop
  | wait {s : ThrottleState} {now : Nat} (h : s.now ≤ now) : ThrottleStep s { s with now }
  | refuse {s : ThrottleState} {key : String} (h : (s.throttle.blocked key s.now).1 = true) :
      ThrottleStep s { s with throttle := (s.throttle.blocked key s.now).2 }
  | enter {s : ThrottleState} {key : String} (h : (s.throttle.blocked key s.now).1 = false) :
      ThrottleStep s
        { s with throttle := (s.throttle.blocked key s.now).2, flights := (key, .verifying) :: s.flights }
  | verify {s : ThrottleState} {key : String} {before after : List (String × Verdict)} (verdict : Verdict)
      (h : s.flights = before ++ (key, .verifying) :: after) :
      ThrottleStep s { s with flights := before ++ (key, verdict) :: after }
  | fail {s : ThrottleState} {key : String} {before after : List (String × Verdict)}
      (h : s.flights = before ++ (key, .wrong) :: after) :
      ThrottleStep s
        { s with
          throttle := s.throttle.recordFailure key s.now
          flights := before ++ after
          history := .failed key s.now :: s.history }
  | succeed {s : ThrottleState} {key : String} {before after : List (String × Verdict)}
      (h : s.flights = before ++ (key, .right) :: after) :
      ThrottleStep s
        { s with throttle := s.throttle.reset key, flights := before ++ after, history := .succeeded key :: s.history }
  | drop {s : ThrottleState} {key : String} {verdict : Verdict} {before after : List (String × Verdict)}
      (h : s.flights = before ++ (key, verdict) :: after) (hv : verdict ≠ .wrong) :
      ThrottleStep s { s with flights := before ++ after }

def ThrottleState.inFlight (s : ThrottleState) (key : String) : Nat := (s.flights.filter (·.1 = key)).length

/-- Runs with at most `limit` requests of a key under way at a time. -/
inductive ThrottleRun (t : LoginThrottle) (key : String) (limit : Nat) : ThrottleState → Prop
  | start : ThrottleRun t key limit (.start t)
  | step {s s' : ThrottleState} (h : ThrottleRun t key limit s) (hs : ThrottleStep s s') (hl : s'.inFlight key ≤ limit) :
      ThrottleRun t key limit s'

/-- The failures of a key since its last success, the last one first. -/
def failuresSince (key : String) : List LoginEvent → List Nat
  | [] => []
  | .failed k at_ :: history => if k = key then at_ :: failuresSince key history else failuresSince key history
  | .succeeded k :: history => if k = key then [] else failuresSince key history

/-! ## Counting windows -/

structure CountingWindow where
  first : Nat
  later : List Nat
  deriving DecidableEq, Repr

def CountingWindow.times (c : CountingWindow) : List Nat := c.later ++ [c.first]

/-- Failures (the last one first) cut into windows: a failure within `w` of the first one of the open window belongs to
it, another one begins a window of its own. -/
def countingWindows (w : Nat) : List Nat → List CountingWindow
  | [] => []
  | at_ :: times =>
    match countingWindows w times with
    | [] => [⟨at_, []⟩]
    | c :: cs => if at_ < c.first + w then ⟨c.first, at_ :: c.later⟩ :: cs else ⟨at_, []⟩ :: c :: cs

theorem countingWindows_flatten (w : Nat) (times : List Nat) :
    (countingWindows w times).flatMap CountingWindow.times = times := by
  induction times with
  | nil => rfl
  | cons x xs ih =>
    rw [countingWindows]
    cases h : countingWindows w xs with
    | nil => rw [h] at ih; simp [CountingWindow.times, ← ih]
    | cons c cs =>
      by_cases hx : x < c.first + w
      · simp only [hx, if_true]; rw [← ih, h]; simp [CountingWindow.times]
      · simp only [hx, if_false]; rw [← ih, h]; simp [CountingWindow.times]

/-! ## What the operations do to an entry -/

section Entries

variable (t : LoginThrottle) (key other : String) (now : Nat)

def LoginThrottle.open? : Option (Nat × Nat) := (t.inner[key]?).filter fun e => now - e.2 < t.window

variable {t key now} in
theorem LoginThrottle.open?_some {e : Nat × Nat} (h : t.inner[key]? = some e) :
    t.open? key now = if t.window ≤ now - e.2 then none else some e := by
  unfold open?
  by_cases hw : t.window ≤ now - e.2
  · simp [h, hw, Option.filter]
  · simp [h, hw, Option.filter, Nat.lt_of_not_le hw]

variable {t key now} in
theorem LoginThrottle.open?_none (h : t.inner[key]? = none) : t.open? key now = none := by
  unfold open?
  rw [h]; rfl

theorem LoginThrottle.blocked_iff :
    (t.blocked key now).1 = true ↔ ∃ e, t.open? key now = some e ∧ t.maxFailures ≤ e.1 := by
  unfold blocked
  cases h : t.inner[key]? with
  | none => simp [open?_none h]
  | some e => by_cases hw : t.window ≤ now - e.2 <;> simp [open?_some h, hw]

theorem LoginThrottle.blocked_inner :
    (t.blocked key now).2.inner[other]? = if other = key then t.open? key now else t.inner[other]? := by
  unfold blocked
  cases h : t.inner[key]? with
  | none => by_cases ho : other = key <;> simp [ho, h, open?_none h]
  | some e =>
    by_cases hw : t.window ≤ now - e.2 <;> by_cases ho : other = key
    · simp [hw, ho, open?_some h]
    · simp [hw, ho, ExtTreeMap.getElem?_erase, Ne.symm ho]
    · simp [hw, ho, h, open?_some h]
    · simp [hw, ho]

@[simp] theorem LoginThrottle.blocked_window : (t.blocked key now).2.window = t.window := by
  unfold blocked; split <;> first | rfl | (split <;> rfl)

@[simp] theorem LoginThrottle.blocked_maxFailures : (t.blocked key now).2.maxFailures = t.maxFailures := by
  unfold blocked; split <;> first | rfl | (split <;> rfl)

theorem LoginThrottle.recordFailure_inner :
    (t.recordFailure key now).inner[other]? =
      if other = key then some ((t.open? key now).elim (1, now) fun e => (e.1 + 1, e.2)) else t.inner[other]? := by
  unfold recordFailure
  cases h : t.inner[key]? with
  | none => by_cases ho : other = key <;> simp [ho, open?_none h, ExtTreeMap.getElem?_insert, Ne.symm]
  | some e =>
    by_cases hw : t.window ≤ now - e.2 <;> by_cases ho : other = key <;>
      simp [hw, ho, open?_some h, ExtTreeMap.getElem?_insert, Ne.symm]

@[simp] theorem LoginThrottle.recordFailure_window : (t.recordFailure key now).window = t.window := by
  unfold recordFailure; split <;> first | rfl | (split <;> rfl)

@[simp] theorem LoginThrottle.recordFailure_maxFailures :
    (t.recordFailure key now).maxFailures = t.maxFailures := by
  unfold recordFailure; split <;> first | rfl | (split <;> rfl)

theorem LoginThrottle.reset_inner :
    (t.reset key).inner[other]? = if other = key then none else t.inner[other]? := by
  by_cases ho : other = key
  · simp [reset, ho]
  · simp [reset, ho, ExtTreeMap.getElem?_erase, Ne.symm ho]

end Entries

/-! ## Over a run -/

def Tracks (w now : Nat) : Option (Nat × Nat) → List CountingWindow → Prop
  | some e, c :: _ => e = (c.times.length, c.first)
  | some _, [] => False
  | none, c :: _ => c.first + w ≤ now
  | none, [] => True

structure ThrottleInv (t : LoginThrottle) (key : String) (limit : Nat) (s : ThrottleState) : Prop where
  window : s.throttle.window = t.window
  maxFailures : s.throttle.maxFailures = t.maxFailures
  past : ∀ x ∈ failuresSince key s.history, x ≤ s.now
  ordered : (failuresSince key s.history).Pairwise (· ≥ ·)
  tracks : Tracks t.window s.now s.throttle.inner[key]? (countingWindows t.window (failuresSince key s.history))
  room : ((s.throttle.inner[key]?).elim 0 Prod.fst) + s.inFlight key ≤ t.maxFailures - 1 + limit
  sizes : ∀ c ∈ countingWindows t.window (failuresSince key s.history), c.times.length ≤ t.maxFailures - 1 + limit

theorem Tracks.mono {w now now' : Nat} {e : Option (Nat × Nat)} {cs : List CountingWindow} (h : Tracks w now e cs)
    (hn : now ≤ now') : Tracks w now' e cs := by
  cases e with
  | some e => cases cs <;> exact h
  | none =>
    cases cs with
    | nil => trivial
    | cons c cs => exact Nat.le_trans h hn

theorem Tracks.open? {w now : Nat} {e : Option (Nat × Nat)} {cs : List CountingWindow} (h : Tracks w now e cs)
    (hw : 0 < w) : Tracks w now (e.filter fun e => now - e.2 < w) cs := by
  cases e with
  | none => exact h
  | some e =>
    cases cs with
    | nil => exact h.elim
    | cons c cs =>
      by_cases hx : now - e.2 < w
      · simpa [Option.filter, hx] using h
      · have h : e = (c.times.length, c.first) := h
        subst h
        simp only [Option.filter, hx, decide_false, Bool.false_eq_true, if_false, Tracks]
        simp only at hx
        omega

/-- A failure lands in the window its entry stands for. -/
theorem Tracks.fail {w now : Nat} {e : Option (Nat × Nat)} {times : List Nat}
    (h : Tracks w now (e.filter fun e => now - e.2 < w) (countingWindows w times)) (_ : 0 < w) :
    Tracks w now (some ((e.filter fun e => now - e.2 < w).elim (1, now) fun e => (e.1 + 1, e.2)))
      (countingWindows w (now :: times)) := by
  rw [countingWindows]
  cases hf : e.filter (fun e => now - e.2 < w) with
  | none =>
    rw [hf] at h
    cases hc : countingWindows w times with
    | nil => simp [Tracks, CountingWindow.times]
    | cons c cs =>
      rw [hc] at h
      have h : c.first + w ≤ now := h
      simp [Tracks, CountingWindow.times, Nat.not_lt.mpr h]
  | some a =>
    rw [hf] at h
    have ha := (Option.filter_eq_some_iff.mp hf).2
    cases hc : countingWindows w times with
    | nil => rw [hc] at h; exact h.elim
    | cons c cs =>
      rw [hc] at h
      have h : a = (c.times.length, c.first) := h
      subst h
      have hx : now < c.first + w := by simp at ha; omega
      simp [Tracks, CountingWindow.times, hx]

theorem filter_fst_le (e : Option (Nat × Nat)) (p : Nat × Nat → Bool) :
    (e.filter p).elim 0 Prod.fst ≤ e.elim 0 Prod.fst := by
  cases e with
  | none => simp
  | some e => by_cases hp : p e <;> simp [Option.filter, hp]

theorem inFlight_split (key : String) {s : ThrottleState} {k : String} {v : Verdict} {before after : List (String × Verdict)}
    (h : s.flights = before ++ (k, v) :: after) (s' : ThrottleState) (h' : s'.flights = before ++ after) :
    s.inFlight key = s'.inFlight key + if k = key then 1 else 0 := by
  unfold ThrottleState.inFlight
  by_cases hk : k = key <;> simp [h, h', hk, Nat.add_assoc]

theorem inFlight_verified {s : ThrottleState} {key k : String} {v v' : Verdict} {before after : List (String × Verdict)}
    (h : s.flights = before ++ (k, v) :: after) (s' : ThrottleState) (h' : s'.flights = before ++ (k, v') :: after) :
    s'.inFlight key = s.inFlight key := by
  unfold ThrottleState.inFlight
  by_cases hk : k = key <;> simp [h, h', hk]

section Steps

variable {t : LoginThrottle} {key : String} {limit : Nat} {s : ThrottleState}

theorem ThrottleInv.look (hi : ThrottleInv t key limit s) (hw : 0 < t.window) (k : String) :
    Tracks t.window s.now (s.throttle.blocked k s.now).2.inner[key]?
        (countingWindows t.window (failuresSince key s.history)) ∧
      ((s.throttle.blocked k s.now).2.inner[key]?).elim 0 Prod.fst ≤ (s.throttle.inner[key]?).elim 0 Prod.fst := by
  rw [LoginThrottle.blocked_inner]
  by_cases hk : key = k
  · subst hk
    simp only [if_true, LoginThrottle.open?, hi.window]
    exact ⟨hi.tracks.open? hw, filter_fst_le _ _⟩
  · simp only [hk, if_false]
    exact ⟨hi.tracks, Nat.le_refl _⟩

theorem ThrottleInv.admitted (hi : ThrottleInv t key limit s) (hm : 0 < t.maxFailures) {k : String}
    (h : (s.throttle.blocked k s.now).1 = false) (hk : k = key) :
    ((s.throttle.blocked k s.now).2.inner[key]?).elim 0 Prod.fst ≤ t.maxFailures - 1 := by
  subst hk
  have hb := LoginThrottle.blocked_iff s.throttle k s.now
  rw [LoginThrottle.blocked_inner, if_pos rfl]
  cases ho : s.throttle.open? k s.now with
  | none => simp
  | some e =>
    simp only [h, ho, hi.maxFailures, Bool.false_eq_true, false_iff, Option.some.injEq, exists_eq_left', not_le] at hb
    simp only [Option.elim_some]
    omega

theorem mem_countingWindows_cons {w x : Nat} {xs : List Nat} {c : CountingWindow}
    (h : c ∈ countingWindows w (x :: xs)) :
    (countingWindows w (x :: xs)).head? = some c ∨ c ∈ countingWindows w xs := by
  rw [countingWindows] at h ⊢
  cases hc : countingWindows w xs with
  | nil => rw [hc] at h; simp only [List.mem_singleton] at h; simp [h]
  | cons d ds =>
    rw [hc] at h
    by_cases hx : x < d.first + w
    · simp only [hx, if_true, List.mem_cons] at h ⊢
      rcases h with rfl | h
      · exact .inl rfl
      · exact .inr (.inr h)
    · simp only [hx, if_false, List.mem_cons] at h ⊢
      rcases h with rfl | h
      · exact .inl rfl
      · exact .inr h

theorem ThrottleInv.fail (hi : ThrottleInv t key limit s) (hw : 0 < t.window) (_ : s.inFlight key ≤ limit)
    (_ : 0 < t.maxFailures) {before after : List (String × Verdict)}
    (h : s.flights = before ++ (key, .wrong) :: after) :
    ThrottleInv t key limit
      { s with
        throttle := s.throttle.recordFailure key s.now
        flights := before ++ after
        history := .failed key s.now :: s.history } := by
  have hf := inFlight_split key h
    { s with
      throttle := s.throttle.recordFailure key s.now
      flights := before ++ after
      history := .failed key s.now :: s.history } rfl
  rw [if_pos rfl] at hf
  have hs : failuresSince key (.failed key s.now :: s.history) = s.now :: failuresSince key s.history := by
    simp [failuresSince]
  have htr := (hi.tracks.open? hw).fail hw
  have hroom : (s.throttle.open? key s.now).elim 1 (fun e => e.1 + 1) + (s.inFlight key - 1) ≤ t.maxFailures - 1 + limit := by
    have hr := hi.room
    cases ho : s.throttle.open? key s.now with
    | none => simp only [Option.elim_none]; omega
    | some e =>
      rw [(Option.filter_eq_some_iff.mp ho).1] at hr
      simp only [Option.elim_some] at hr ⊢
      omega
  have hin : (s.throttle.recordFailure key s.now).inner[key]? =
      some ((s.throttle.open? key s.now).elim (1, s.now) fun e => (e.1 + 1, e.2)) := by
    rw [LoginThrottle.recordFailure_inner, if_pos rfl]
  have hcount : ((s.throttle.open? key s.now).elim (1, s.now) fun e => (e.1 + 1, e.2)).1 =
      (s.throttle.open? key s.now).elim 1 fun e => e.1 + 1 := by
    cases s.throttle.open? key s.now <;> rfl
  rw [LoginThrottle.open?, hi.window] at hin
  refine ⟨by simp [hi.window], by simp [hi.maxFailures], ?_, ?_, ?_, ?_, ?_⟩
  · rw [hs]
    exact List.forall_mem_cons.mpr ⟨Nat.le_refl _, hi.past⟩
  · rw [hs]
    exact List.pairwise_cons.mpr ⟨hi.past, hi.ordered⟩
  · rw [hs, hin]
    exact htr
  · rw [hin]
    rw [LoginThrottle.open?, hi.window] at hroom hcount
    simp only [Option.elim_some, hcount]
    omega
  · rw [hs]
    intro c hc
    rcases mem_countingWindows_cons hc with hc | hc
    · cases hws : countingWindows t.window (s.now :: failuresSince key s.history) with
      | nil => rw [hws] at hc; cases hc
      | cons d ds =>
        rw [hws] at hc htr
        obtain rfl : d = c := by simpa using hc
        have hd := congrArg Prod.fst htr
        rw [LoginThrottle.open?, hi.window] at hroom hcount
        rw [hcount] at hd
        simp only at hd
        omega
    · exact hi.sizes c hc

theorem ThrottleInv.other (hi : ThrottleInv t key limit s) {k : String} (hk : k ≠ key) {v : Verdict}
    {before after : List (String × Verdict)} (h : s.flights = before ++ (k, v) :: after) (throttle : LoginThrottle)
    (event : LoginEvent) (hw : throttle.window = s.throttle.window) (hm : throttle.maxFailures = s.throttle.maxFailures)
    (hin : throttle.inner[key]? = s.throttle.inner[key]?)
    (he : failuresSince key (event :: s.history) = failuresSince key s.history) :
    ThrottleInv t key limit
      { s with throttle := throttle, flights := before ++ after, history := event :: s.history } := by
  have hf := inFlight_split key h
    { s with throttle := throttle, flights := before ++ after, history := event :: s.history } rfl
  rw [if_neg hk] at hf
  refine ⟨hw.trans hi.window, hm.trans hi.maxFailures, ?_, ?_, ?_, ?_, ?_⟩
  · rw [he]; exact hi.past
  · rw [he]; exact hi.ordered
  · rw [he, hin]; exact hi.tracks
  · rw [hin]
    have hr := hi.room
    omega
  · rw [he]; exact hi.sizes

theorem ThrottleInv.succeed (hi : ThrottleInv t key limit s) {before after : List (String × Verdict)}
    (hl : (ThrottleState.inFlight { s with
      throttle := s.throttle.reset key, flights := before ++ after, history := .succeeded key :: s.history } key) ≤ limit) :
    ThrottleInv t key limit
      { s with throttle := s.throttle.reset key, flights := before ++ after, history := .succeeded key :: s.history } := by
  have hs : failuresSince key (.succeeded key :: s.history) = [] := by simp [failuresSince]
  have hin : (s.throttle.reset key).inner[key]? = none := by simp [LoginThrottle.reset_inner]
  refine ⟨hi.window, hi.maxFailures, by simp [hs], by simp [hs], ?_, ?_, by simp [hs, countingWindows]⟩
  · rw [hs, hin]; trivial
  · rw [hin]
    simp only [Option.elim_none]
    omega

theorem ThrottleInv.step (hi : ThrottleInv t key limit s) (hw : 0 < t.window) (hm : 0 < t.maxFailures)
    {s' : ThrottleState} (hs : ThrottleStep s s') (hl : s.inFlight key ≤ limit) (hl' : s'.inFlight key ≤ limit) :
    ThrottleInv t key limit s' := by
  obtain ⟨window, maxFailures, past, ordered, tracks, room, sizes⟩ := id hi
  cases hs with
  | wait h =>
    exact ⟨window, maxFailures, fun x hx => Nat.le_trans (past x hx) h, ordered, tracks.mono h, room, sizes⟩
  | @refuse k h =>
    obtain ⟨h1, h2⟩ := hi.look hw k
    refine ⟨by simp [window], by simp [maxFailures], past, ordered, h1, ?_, sizes⟩
    exact Nat.le_trans (Nat.add_le_add_right h2 _) room
  | @enter k h =>
    obtain ⟨h1, h2⟩ := hi.look hw k
    refine ⟨by simp [window], by simp [maxFailures], past, ordered, h1, ?_, sizes⟩
    by_cases hk : k = key
    · exact Nat.add_le_add (hi.admitted hm h hk) hl'
    · have : ({ s with
          throttle := (s.throttle.blocked k s.now).2
          flights := (k, .verifying) :: s.flights } : ThrottleState).inFlight key = s.inFlight key := by
        simp [ThrottleState.inFlight, hk]
      rw [this]
      exact Nat.le_trans (Nat.add_le_add_right h2 _) room
  | verify verdict h =>
    refine ⟨window, maxFailures, past, ordered, tracks, ?_, sizes⟩
    rw [inFlight_verified h _ rfl]
    exact room
  | @fail k before after h =>
    by_cases hk : k = key
    · subst hk
      exact hi.fail hw hl hm h
    · refine hi.other hk h _ _ (by simp) (by simp) ?_ (by simp [failuresSince, hk])
      rw [LoginThrottle.recordFailure_inner, if_neg (Ne.symm hk)]
  | @succeed k before after h =>
    by_cases hk : k = key
    · subst hk
      exact hi.succeed hl'
    · refine hi.other hk h _ _ rfl rfl ?_ (by simp [failuresSince, hk])
      rw [LoginThrottle.reset_inner, if_neg (Ne.symm hk)]
  | @drop k verdict before after h hv =>
    have hf := inFlight_split key h { s with flights := before ++ after } rfl
    refine ⟨window, maxFailures, past, ordered, tracks, ?_, sizes⟩
    exact Nat.le_trans (Nat.add_le_add_left (by omega) _) room

theorem ThrottleRun.inFlight_le (h : ThrottleRun t key limit s) : s.inFlight key ≤ limit := by
  cases h with
  | start => simp [ThrottleState.inFlight, ThrottleState.start]
  | step _ _ hl => exact hl

theorem ThrottleRun.inv (h : ThrottleRun t key limit s) (ht : t.inner = ∅) (hw : 0 < t.window)
    (hm : 0 < t.maxFailures) : ThrottleInv t key limit s := by
  induction h with
  | start =>
    have hin : (ThrottleState.start t).throttle.inner[key]? = none := by simp [ThrottleState.start, ht]
    refine ⟨rfl, rfl, nofun, .nil, ?_, ?_, nofun⟩
    · rw [hin]; trivial
    · rw [hin]; simp [ThrottleState.inFlight, ThrottleState.start]
  | step h hs hl ih => exact ih.step hw hm hs h.inFlight_le hl

/-- A key is blocked exactly while the window it last filled is open. -/
theorem ThrottleInv.blocked_iff (hi : ThrottleInv t key limit s) (hw : 0 < t.window) {now : Nat} (hn : s.now ≤ now) :
    (s.throttle.blocked key now).1 = true ↔
      ∃ c ∈ (countingWindows t.window (failuresSince key s.history)).head?,
        t.maxFailures ≤ c.times.length ∧ now < c.first + t.window := by
  rw [LoginThrottle.blocked_iff, LoginThrottle.open?, hi.window, hi.maxFailures]
  have htr := hi.tracks
  cases he : s.throttle.inner[key]? with
  | none =>
    rw [he] at htr
    cases hc : countingWindows t.window (failuresSince key s.history) with
    | nil => simp
    | cons c cs =>
      rw [hc] at htr
      have htr : c.first + t.window ≤ s.now := htr
      simp only [Option.filter_none, reduceCtorEq, false_and, exists_false, List.head?_cons, Option.mem_some_iff,
        exists_eq_left', false_iff, not_and]
      omega
  | some e =>
    rw [he] at htr
    cases hc : countingWindows t.window (failuresSince key s.history) with
    | nil => rw [hc] at htr; exact htr.elim
    | cons c cs =>
      rw [hc] at htr
      have htr : e = (c.times.length, c.first) := htr
      subst htr
      by_cases hx : now - c.first < t.window
      · have : now < c.first + t.window := by omega
        simp [Option.filter, hx, this]
      · have : ¬ now < c.first + t.window := by omega
        simp [Option.filter, hx, this]

theorem countingWindows_head {w x : Nat} {xs : List Nat} {c : CountingWindow}
    (h : (countingWindows w xs).head? = some c) (hx : xs.head? = some x) (hp : xs.Pairwise (· ≥ ·)) : c.first ≤ x := by
  cases xs with
  | nil => cases hx
  | cons y ys =>
    obtain rfl : y = x := by simpa using hx
    have hmem : c.first ∈ (countingWindows w (y :: ys)).flatMap CountingWindow.times :=
      List.mem_flatMap.mpr ⟨c, List.mem_of_mem_head? h, by simp [CountingWindow.times]⟩
    rw [countingWindows_flatten] at hmem
    rcases List.mem_cons.mp hmem with hmem | hmem
    · exact Nat.le_of_eq hmem
    · exact (List.pairwise_cons.mp hp).1 _ hmem

theorem ThrottleInv.blocked_until (hi : ThrottleInv t key limit s) (hw : 0 < t.window) {now : Nat} (hn : s.now ≤ now)
    (hb : (s.throttle.blocked key now).1 = true) :
    ∃ last ∈ (failuresSince key s.history).head?, last ≤ s.now ∧ now < last + t.window := by
  obtain ⟨c, hc, -, hlt⟩ := (hi.blocked_iff hw hn).mp hb
  cases hf : failuresSince key s.history with
  | nil => rw [hf] at hc; cases hc
  | cons x xs =>
    have hx : x ≤ s.now := hi.past x (by simp [hf])
    have hle := countingWindows_head hc (x := x) (by rw [hf]; rfl) hi.ordered
    exact ⟨x, rfl, hx, by omega⟩

end Steps

/-! ## The bound is reached -/

/-- `n` failures are counted at time 0 and `k` requests are about to count theirs. -/
structure Held (t : LoginThrottle) (key : String) (n k : Nat) (s : ThrottleState) : Prop where
  window : s.throttle.window = t.window
  maxFailures : s.throttle.maxFailures = t.maxFailures
  now : s.now = 0
  flights : s.flights = List.replicate k (key, .wrong)
  failures : failuresSince key s.history = List.replicate n 0
  entry : s.throttle.inner[key]? = if n = 0 then none else some (n, 0)

section Reached

variable {t : LoginThrottle} {key : String} {limit n k : Nat} {s : ThrottleState}

theorem Held.open? (h : Held t key n k s) (hw : 0 < t.window) :
    s.throttle.open? key 0 = if n = 0 then none else some (n, 0) := by
  by_cases hn : n = 0
  · rw [LoginThrottle.open?_none (by rw [h.entry, if_pos hn]), if_pos hn]
  · rw [LoginThrottle.open?_some (by rw [h.entry, if_neg hn]), if_neg hn, h.window]
    simp [Nat.ne_of_gt hw]

theorem Held.enter (hr : ThrottleRun t key limit s) (h : Held t key n k s) (hw : 0 < t.window)
    (hn : n < t.maxFailures) (hk : k < limit) : ∃ s', ThrottleRun t key limit s' ∧ Held t key n (k + 1) s' := by
  have hb : (s.throttle.blocked key s.now).1 = false := by
    rw [Bool.eq_false_iff, Ne, LoginThrottle.blocked_iff, h.now, h.open? hw, h.maxFailures]
    by_cases h0 : n = 0 <;> simp [h0]
    omega
  have ha := hr.step (.enter hb) (by simp [ThrottleState.inFlight, h.flights]; omega)
  have hf : (key, Verdict.verifying) :: s.flights = [] ++ (key, .verifying) :: s.flights := rfl
  refine ⟨_, ha.step (.verify .wrong hf) (by simp [ThrottleState.inFlight, h.flights]; omega), ?_⟩
  refine ⟨by simp [h.window], by simp [h.maxFailures], h.now, by simp [h.flights, List.replicate_succ], h.failures, ?_⟩
  simp only [LoginThrottle.blocked_inner, if_true, h.now]
  exact h.open? hw

theorem Held.fail (hr : ThrottleRun t key limit s) (h : Held t key n (k + 1) s) (hw : 0 < t.window)
    (_ : k < limit) : ∃ s', ThrottleRun t key limit s' ∧ Held t key (n + 1) k s' := by
  have hf : s.flights = [] ++ (key, .wrong) :: List.replicate k (key, .wrong) := h.flights
  refine ⟨_, hr.step (.fail hf) (by simp [ThrottleState.inFlight]; omega), ?_⟩
  refine ⟨by simp [h.window], by simp [h.maxFailures], h.now, rfl, ?_, ?_⟩
  · simp [failuresSince, h.failures, h.now, List.replicate_succ]
  · simp only [LoginThrottle.recordFailure_inner, if_true, h.now, h.open? hw]
    by_cases h0 : n = 0 <;> simp [h0]

theorem held_below (ht : t.inner = ∅) (hw : 0 < t.window) (hl : 0 < limit) (hn : n < t.maxFailures) :
    ∃ s, ThrottleRun t key limit s ∧ Held t key n 0 s := by
  induction n with
  | zero => exact ⟨_, .start, rfl, rfl, rfl, rfl, rfl, by simp [ThrottleState.start, ht]⟩
  | succ n ih =>
    obtain ⟨s, hr, hh⟩ := ih (by omega)
    obtain ⟨s, hr, hh⟩ := hh.enter hr hw (by omega) hl
    exact hh.fail hr hw hl

theorem held_admitted (hr : ThrottleRun t key limit s) (h : Held t key n 0 s) (hw : 0 < t.window)
    (hn : n < t.maxFailures) (hk : k ≤ limit) : ∃ s, ThrottleRun t key limit s ∧ Held t key n k s := by
  induction k with
  | zero => exact ⟨s, hr, h⟩
  | succ k ih =>
    obtain ⟨s', hr', hh⟩ := ih (by omega)
    exact hh.enter hr' hw hn hk

theorem held_counted (hr : ThrottleRun t key limit s) (h : Held t key n k s) (hw : 0 < t.window) (hk : k ≤ limit) :
    ∃ s, ThrottleRun t key limit s ∧ Held t key (n + k) 0 s := by
  induction k generalizing n s with
  | zero => exact ⟨s, hr, h⟩
  | succ k ih =>
    obtain ⟨s', hr', h'⟩ := h.fail hr hw hk
    obtain ⟨s', hr', h'⟩ := ih hr' h' (by omega)
    rw [show n + 1 + k = n + (k + 1) by omega] at h'
    exact ⟨s', hr', h'⟩

theorem countingWindows_replicate (w : Nat) (hw : 0 < w) (n : Nat) :
    countingWindows w (List.replicate (n + 1) 0) = [⟨0, List.replicate n 0⟩] := by
  induction n with
  | zero => rfl
  | succ n ih => rw [List.replicate_succ, countingWindows, ih]; simp [hw, List.replicate_succ]

end Reached

/-- The throttle counts at most `maxFailures + limit` wrong passwords of a key in a window while up to `limit + 1` of
its requests are under way together, and so many do get through; a key is blocked exactly while a window it filled is
open, and never a full window after its last failure. -/
theorem throttle_bound (t : LoginThrottle) (key : String) (limit : Nat) (ht : t.inner = ∅) (hw : 0 < t.window)
    (hm : 0 < t.maxFailures) :
    IsGreatest
        {n | ∃ s, ThrottleRun t key (limit + 1) s ∧
          ∃ c ∈ countingWindows t.window (failuresSince key s.history), c.times.length = n}
        (t.maxFailures + limit) ∧
      ∀ s, ThrottleRun t key (limit + 1) s → ∀ now, s.now ≤ now →
        ((s.throttle.blocked key now).1 = true ↔
          ∃ c ∈ (countingWindows t.window (failuresSince key s.history)).head?,
            t.maxFailures ≤ c.times.length ∧ now < c.first + t.window) ∧
        ((s.throttle.blocked key now).1 = true →
          ∃ last ∈ (failuresSince key s.history).head?, last ≤ s.now ∧ now < last + t.window) := by
  refine ⟨⟨?_, ?_⟩, ?_⟩
  · obtain ⟨s, hr, hh⟩ := held_below ht hw (Nat.succ_pos limit) (Nat.sub_lt hm Nat.one_pos)
    obtain ⟨s, hr, hh⟩ := held_admitted hr hh hw (by omega) (Nat.le_refl _)
    obtain ⟨s, hr, hh⟩ := held_counted hr hh hw (Nat.le_refl _)
    have hlen : t.maxFailures - 1 + (limit + 1) = t.maxFailures + limit - 1 + 1 := by omega
    refine ⟨s, hr, ⟨0, List.replicate (t.maxFailures + limit - 1) 0⟩, ?_, ?_⟩
    · rw [hh.failures, hlen, countingWindows_replicate _ hw]
      exact List.mem_singleton.mpr rfl
    · simp only [CountingWindow.times, List.length_append, List.length_replicate, List.length_singleton]
      omega
  · rintro n ⟨s, hr, c, hc, rfl⟩
    have := (hr.inv ht hw hm).sizes c hc
    omega
  · intro s hr now hn
    have hi := hr.inv ht hw hm
    exact ⟨hi.blocked_iff hw hn, hi.blocked_until hw hn⟩

/-- The throttle of the server lets a sixth wrong password through when two requests race. -/
theorem throttle_bound_server :
    IsGreatest
      {n | ∃ s, ThrottleRun .new "10.0.0.9" (1 + 1) s ∧
        ∃ c ∈ countingWindows LoginThrottle.new.window (failuresSince "10.0.0.9" s.history), c.times.length = n}
      6 :=
  (throttle_bound .new "10.0.0.9" 1 rfl (by decide) (by decide)).1

end Defing
