import Defing.State.Announce
import Defing.Watch.History
import Defing.Watch.Hub

/-!
# What a stream has sent

Next to what it has sent a stream has versions to replay, events to take, and
others that are on their way to it. `Follows` says how they fit together; what
the stream does, and what happens around it, keeps it.
-/

namespace Defing

open Broadcast

variable {id : ProjectId} {b : BranchName} {s s' : WatchStream} {applied : List Nat} {active active' : Nat}
  {queue rest rest' events : List PublishEvent} {e e' : PublishEvent}

/-! ## Versions of a stream -/

def WatchStream.told (s : WatchStream) : List Nat :=
  s.replayed.map (·.version) ++ (s.live.filter (·.gray = false)).map (·.version)

def WatchStream.bar (s : WatchStream) : Nat := ((s.replayed ++ s.replay).map (·.version)).foldr max s.after

def WatchStream.Lasts (s : WatchStream) (rx : Broadcast.Receiver PublishEvent) : Prop :=
  s.ended = false ∧ s.required = false ∧ rx.lagged = false

/-- Once `e` has been received, the stream still takes `e'`. -/
def WatchStream.Before (id : ProjectId) (b : BranchName) (s : WatchStream) (e e' : PublishEvent) : Prop :=
  e.project = id ∧ e.branch = b → NonGray id b e' → s.bar < e'.version →
    s.way = .sse ∧ e.gray = true ∨ e.version < e'.version

def WatchStream.Shows (s : WatchStream) (e : PublishEvent) : Prop := s.way.send e ∈ s.replayed ++ s.replay ++ s.live

/-- Of these events, what the stream does not show it has still to take. -/
def WatchStream.Owes (s : WatchStream) (grays queue rest : List PublishEvent) : Prop :=
  ∀ e ∈ grays, s.Shows e ∨ e ∈ queue ++ rest

theorem mem_versionsOf {v : Nat} : v ∈ versionsOf events id b ↔ ∃ e ∈ events, NonGray id b e ∧ e.version = v := by
  simp [versionsOf, and_assoc]

theorem mem_graysOf : e ∈ graysOf events id b ↔ e ∈ events ∧ OfGray id b e := by
  simp [graysOf]

theorem le_foldr_max {l : List Nat} {m v : Nat} : v ≤ l.foldr max m ↔ v ≤ m ∨ ∃ x ∈ l, v ≤ x := by
  induction l with
  | nil => simp
  | cons a l ih => simp [ih, or_left_comm]

theorem foldr_max_le {l : List Nat} {m v : Nat} : l.foldr max m ≤ v ↔ m ≤ v ∧ ∀ x ∈ l, x ≤ v := by
  induction l with
  | nil => simp
  | cons a l ih => simp [ih, and_left_comm]

theorem le_bar {v : Nat} : v ≤ s.bar ↔ v ≤ s.after ∨ ∃ e ∈ s.replayed ++ s.replay, v ≤ e.version := by
  rw [WatchStream.bar, le_foldr_max]
  simp only [List.mem_map, exists_exists_and_eq_and]

@[simp] theorem send_version (w : WatchWay) (e : PublishEvent) : (w.send e).version = e.version := by cases w <;> rfl
@[simp] theorem send_gray (w : WatchWay) (e : PublishEvent) : (w.send e).gray = e.gray := by cases w <;> rfl

/-! ## Streams in order -/

structure WatchStream.InOrder (s : WatchStream) : Prop where
  replays : ((s.replayed ++ s.replay).map (·.version)).Pairwise (· < ·)
  since : ∀ e ∈ s.replayed ++ s.replay, s.after < e.version
  told : (s.told.filter (s.after < ·)).Pairwise (· < ·)
  first : s.replay ≠ [] → s.live = []

/-- A stream that lasts, what it has to take from the hub, and what is on its way there. -/
structure WatchStream.Follows (id : ProjectId) (b : BranchName) (s : WatchStream) (applied : List Nat) (active : Nat)
    (queue rest : List PublishEvent) : Prop where
  known : ∀ e ∈ s.replayed ++ s.replay, e.version ≤ active
  told : ∀ v ∈ s.told, v ≤ max s.bar active
  last : s.last ≤ max s.bar active
  caught : ∀ e ∈ s.replayed, e.version ≤ s.last
  fixed : s.way = .sse → ∀ e ∈ s.replay, e.version ≤ s.last
  ahead : ∀ e ∈ queue ++ rest, NonGray id b e → s.bar < e.version → (∀ v ∈ s.told, v < e.version) ∧ s.last < e.version
  inLine : queue.Pairwise (s.Before id b)
  behind : ∀ e ∈ queue, ∀ e' ∈ rest, s.Before id b e e'
  upTo : ∀ e ∈ queue, e.project = id ∧ e.branch = b → e.version ≤ active
  covers : ∀ v ∈ applied, s.after < v → v ∈ s.told ∨ v ∈ s.replay.map (·.version) ∨
    s.bar < v ∧ v ∈ versionsOf (queue ++ rest) id b

namespace WatchStream

theorem Follows.announce (h : s.Follows id b applied active queue rest) (hle : active ≤ active')
    (hnew : ∀ e ∈ events, NonGray id b e → active < e.version) :
    s.Follows id b (applied ++ versionsOf events id b) active' queue (rest ++ events) where
  known e he := Nat.le_trans (h.known e he) hle
  told v hv := Nat.le_trans (h.told v hv) (sup_le_sup_left hle _)
  last := Nat.le_trans h.last (sup_le_sup_left hle _)
  caught := h.caught
  fixed := h.fixed
  ahead e he hgray hbar := by
    rw [← List.append_assoc] at he
    rcases List.mem_append.mp he with he | he
    · exact h.ahead e he hgray hbar
    · have hlt : max s.bar active < e.version := max_lt hbar (hnew e he hgray)
      exact ⟨fun v hv => Nat.lt_of_le_of_lt (h.told v hv) hlt, Nat.lt_of_le_of_lt h.last hlt⟩
  inLine := h.inLine
  behind e he e' he' := by
    rcases List.mem_append.mp he' with he' | he'
    · exact h.behind e he e' he'
    · intro hof hgray _
      exact .inr (Nat.lt_of_le_of_lt (h.upTo e he hof) (hnew e' he' hgray))
  upTo e he hof := Nat.le_trans (h.upTo e he hof) hle
  covers v hv hafter := by
    rcases List.mem_append.mp hv with hv | hv
    · refine (h.covers v hv hafter).imp_right (Or.imp_right ?_)
      intro ⟨hbar, hmem⟩
      obtain ⟨e, he, hof⟩ := mem_versionsOf.mp hmem
      exact ⟨hbar, mem_versionsOf.mpr ⟨e, by rw [← List.append_assoc]; exact List.mem_append_left _ he, hof⟩⟩
    · obtain ⟨e, he, hgray, rfl⟩ := mem_versionsOf.mp hv
      have hactive := hnew e he hgray
      refine .inr (.inr ⟨?_, mem_versionsOf.mpr ⟨e, ?_, hgray, rfl⟩⟩)
      · -- it is newer than all that was there to be replayed
        refine Nat.lt_of_not_le fun hle => ?_
        rcases le_bar.mp hle with hle | ⟨x, hx, hle⟩
        · omega
        · have := h.known x hx
          omega
      · exact List.mem_append_right _ (List.mem_append_right _ he)

theorem Follows.jump (h : s.Follows id b applied active queue rest) (hle : active ≤ active') {vs : List Nat}
    (hvs : ∀ v ∈ vs, v ≤ s.after) : s.Follows id b (applied ++ vs) active' queue rest where
  known e he := Nat.le_trans (h.known e he) hle
  told v hv := Nat.le_trans (h.told v hv) (sup_le_sup_left hle _)
  last := Nat.le_trans h.last (sup_le_sup_left hle _)
  caught := h.caught
  fixed := h.fixed
  ahead := h.ahead
  inLine := h.inLine
  behind := h.behind
  upTo e he hof := Nat.le_trans (h.upTo e he hof) hle
  covers v hv hafter := by
    rcases List.mem_append.mp hv with hv | hv
    · exact h.covers v hv hafter
    · exact absurd hafter (Nat.not_lt_of_le (hvs v hv))

theorem Follows.hear (h : s.Follows id b applied active queue rest) (hmem : ∀ x, x ∈ rest ↔ x = e ∨ x ∈ rest')
    (hupTo : e.project = id ∧ e.branch = b → e.version ≤ active) (hbefore : ∀ e' ∈ rest', s.Before id b e e') :
    s.Follows id b applied active (queue ++ [e]) rest' := by
  have hsame : ∀ x, x ∈ queue ++ [e] ++ rest' ↔ x ∈ queue ++ rest := by
    intro x
    simp only [List.mem_append, List.mem_singleton, hmem, or_assoc]
  have hqueue : ∀ x ∈ queue ++ [e], x ∈ queue ∨ x = e := by simp
  refine ⟨h.known, h.told, h.last, h.caught, h.fixed, fun x hx => h.ahead x ((hsame x).mp hx), ?_, ?_, ?_, ?_⟩
  · refine List.pairwise_append.mpr ⟨h.inLine, List.pairwise_singleton .., ?_⟩
    intro x hx y hy
    rw [List.mem_singleton.mp hy]
    exact h.behind x hx e ((hmem e).mpr (.inl rfl))
  · intro x hx y hy
    rcases hqueue x hx with hx | rfl
    · exact h.behind x hx y ((hmem y).mpr (.inr hy))
    · exact hbefore y hy
  · intro x hx hof
    rcases hqueue x hx with hx | rfl
    · exact h.upTo x hx hof
    · exact hupTo hof
  · intro v hv hafter
    refine (h.covers v hv hafter).imp_right (Or.imp_right (And.imp_right fun hmem => ?_))
    obtain ⟨x, hx, hof⟩ := mem_versionsOf.mp hmem
    exact mem_versionsOf.mpr ⟨x, (hsame x).mpr hx, hof⟩

theorem Follows.miss (h : s.Follows id b applied active [] rest) (hmem : ∀ x, x ∈ rest ↔ x = e ∨ x ∈ rest')
    (hknown : NonGray id b e → e.version ≤ s.bar) : s.Follows id b applied active [] rest' where
  known := h.known
  told := h.told
  last := h.last
  caught := h.caught
  fixed := h.fixed
  ahead x hx := h.ahead x ((hmem x).mpr (.inr hx))
  inLine := .nil
  behind x hx := absurd hx List.not_mem_nil
  upTo x hx := absurd hx List.not_mem_nil
  covers v hv hafter := by
    refine (h.covers v hv hafter).imp_right (Or.imp_right ?_)
    intro ⟨hbar, hv⟩
    obtain ⟨x, hx, hgray, rfl⟩ := mem_versionsOf.mp hv
    refine ⟨hbar, mem_versionsOf.mpr ⟨x, ?_, hgray, rfl⟩⟩
    rcases (hmem x).mp hx with rfl | hx
    · exact absurd (hknown hgray) (Nat.not_le_of_lt hbar)
    · exact hx

theorem next_cases (h : s.next = some s') :
    (∃ e replay, s.replay = e :: replay ∧
      s' = { s with replay, replayed := s.replayed ++ [e], last := s.way.advance s.last e.version }) ∨
    s.required = true ∧ s' = { s with snapshotRequired := true, ended := true } := by
  unfold next at h
  split at h
  · rename_i e replay hreplay
    exact .inl ⟨e, replay, hreplay, (Option.some.inj h).symm⟩
  · split at h
    · exact .inr ⟨‹_›, (Option.some.inj h).symm⟩
    · cases h

theorem next_eq_none : s.next = none ↔ s.replay = [] ∧ s.required = false := by
  unfold next
  split
  · simp [*]
  · split <;> simp [*]

section
variable {x : SeenEvent} {replay : List SeenEvent} {last : Nat}

theorem replayed_eq (hs : s.replay = x :: replay) : s.replayed ++ [x] ++ replay = s.replayed ++ s.replay := by
  rw [hs, List.append_assoc, List.singleton_append]

theorem told_next (ho : s.InOrder) (hs : s.replay = x :: replay) :
    { s with replay, replayed := s.replayed ++ [x], last }.told = s.told ++ [x.version] := by
  have hlive := ho.first (by rw [hs]; exact List.cons_ne_nil _ _)
  simp [WatchStream.told, hlive]

theorem bar_next (hs : s.replay = x :: replay) :
    { s with replay, replayed := s.replayed ++ [x], last }.bar = s.bar := by
  simp only [bar, replayed_eq hs]

/-- What has been sent is older than what is still to be replayed. -/
theorem InOrder.told_lt (ho : s.InOrder) (hs : s.replay = x :: replay) : ∀ v ∈ s.told, v < x.version := by
  have hlive := ho.first (by rw [hs]; exact List.cons_ne_nil _ _)
  intro v hv
  rw [WatchStream.told, hlive, List.filter_nil, List.map_nil, List.append_nil] at hv
  have horder := ho.replays
  rw [List.map_append, List.pairwise_append] at horder
  exact horder.2.2 v hv x.version (by simp [hs])

end

theorem filter_snoc_pairwise {l : List Nat} {after v : Nat} (h : (l.filter (after < ·)).Pairwise (· < ·))
    (hv : after < v → ∀ v' ∈ l, v' < v) : ((l ++ [v]).filter (after < ·)).Pairwise (· < ·) := by
  rw [List.filter_append]
  by_cases hlt : after < v
  · have hone : [v].filter (after < ·) = [v] := by simp [hlt]
    rw [hone]
    refine List.pairwise_append.mpr ⟨h, List.pairwise_singleton .., ?_⟩
    intro v' hv' w hw
    rw [List.mem_singleton.mp hw]
    exact hv hlt v' (List.mem_filter.mp hv').1
  · have hnone : [v].filter (after < ·) = [] := by simpa using hlt
    rw [hnone, List.append_nil]
    exact h

theorem InOrder.next (ho : s.InOrder) (h : s.next = some s') : s'.InOrder := by
  rcases next_cases h with ⟨x, replay, hs, rfl⟩ | ⟨-, rfl⟩
  · refine ⟨?_, ?_, ?_, fun _ => ho.first (by rw [hs]; exact List.cons_ne_nil _ _)⟩
    · simp only [replayed_eq hs]
      exact ho.replays
    · simp only [replayed_eq hs]
      exact ho.since
    · rw [told_next ho hs]
      exact filter_snoc_pairwise ho.told fun _ => ho.told_lt hs
  · exact ⟨ho.replays, ho.since, ho.told, ho.first⟩

theorem Follows.next (hf : s.Follows id b applied active queue rest) (ho : s.InOrder) (hreq : s.required = false)
    (h : s.next = some s') : s'.Follows id b applied active queue rest := by
  rcases next_cases h with ⟨x, replay, hs, rfl⟩ | ⟨hreq', -⟩
  · have hx : x ∈ s.replayed ++ s.replay := List.mem_append_right _ (by rw [hs]; exact List.mem_cons_self)
    have hbar : x.version ≤ s.bar := le_bar.mpr (.inr ⟨x, hx, Nat.le_refl _⟩)
    have hlast : s.way.advance s.last x.version ≤ max s.bar active := by
      cases s.way with
      | sse => exact hf.last
      | grpc => exact Nat.le_trans hbar (Nat.le_max_left _ _)
    have hbefore : ∀ e e', s.Before id b e e' →
        Before id b { s with replay, replayed := s.replayed ++ [x], last := s.way.advance s.last x.version } e e' := by
      intro e e' h hof hgray hlt
      rw [bar_next hs] at hlt
      exact h hof hgray hlt
    refine ⟨?_, ?_, ?_, ?_, ?_, ?_, hf.inLine.imp fun h => hbefore _ _ h, fun e he e' he' => hbefore _ _ (hf.behind e he e' he'),
      hf.upTo, ?_⟩
    · simp only [replayed_eq hs]
      exact hf.known
    · rw [told_next ho hs, bar_next hs]
      intro v hv
      rcases List.mem_append.mp hv with hv | hv
      · exact hf.told v hv
      · rw [List.mem_singleton.mp hv]
        exact Nat.le_trans hbar (Nat.le_max_left _ _)
    · rw [bar_next hs]
      exact hlast
    · intro e he
      simp only
      cases hway : s.way with
      | sse =>
        rcases List.mem_append.mp he with he | he
        · exact hf.caught e he
        · rw [List.mem_singleton.mp he]
          exact hf.fixed hway x (by rw [hs]; exact List.mem_cons_self)
      | grpc =>
        change e.version ≤ x.version
        rcases List.mem_append.mp he with he | he
        · refine Nat.le_of_lt (ho.told_lt hs e.version (List.mem_append_left _ (List.mem_map_of_mem he)))
        · rw [List.mem_singleton.mp he]
    · intro hway e he
      change s.way = .sse at hway
      simp only [hway]
      exact hf.fixed hway e (by rw [hs]; exact List.mem_cons_of_mem _ he)
    · intro e he hgray hlt
      rw [bar_next hs] at hlt
      obtain ⟨htold, hl⟩ := hf.ahead e he hgray hlt
      rw [told_next ho hs]
      refine ⟨fun v hv => ?_, ?_⟩
      · rcases List.mem_append.mp hv with hv | hv
        · exact htold v hv
        · rw [List.mem_singleton.mp hv]
          exact Nat.lt_of_le_of_lt hbar hlt
      · simp only
        cases s.way with
        | sse => exact hl
        | grpc => exact Nat.lt_of_le_of_lt hbar hlt
    · intro v hv hafter
      rw [told_next ho hs, bar_next hs]
      rcases hf.covers v hv hafter with h | h | h
      · exact .inl (List.mem_append_left _ h)
      · rw [hs, List.map_cons, List.mem_cons] at h
        rcases h with rfl | h
        · exact .inl (List.mem_append_right _ (List.mem_singleton_self _))
        · exact .inr (.inl h)
      · exact .inr (.inr h)
  · rw [hreq] at hreq'
    cases hreq'

theorem receive_cases (id : ProjectId) (b : BranchName) (s : WatchStream) (e : PublishEvent) :
    (e.project = id ∧ e.branch = b) ∧ (e.gray = true ∨ s.last < e.version) ∧
      s.receive id b (.value e) =
        { s with live := s.live ++ [s.way.send e], last := s.way.advance s.last (max s.last e.version) } ∨
    ¬ ((e.project = id ∧ e.branch = b) ∧ (e.gray = true ∨ s.last < e.version)) ∧ s.receive id b (.value e) = s := by
  by_cases h : (e.project = id ∧ e.branch = b) ∧ (e.gray = true ∨ s.last < e.version)
  · exact .inl ⟨h.1, h.2, if_pos h⟩
  · exact .inr ⟨h, if_neg h⟩

theorem told_take {last : Nat} :
    { s with live := s.live ++ [s.way.send e], last }.told = s.told ++ if e.gray then [] else [e.version] := by
  cases hgray : e.gray <;> simp [WatchStream.told, hgray]

/-- What is passed over is no newer than the stream has known from the start. -/
theorem Follows.le_bar_of_passed (hf : s.Follows id b applied active (e :: queue) rest) (hgray : NonGray id b e)
    (hpassed : ¬ ((e.project = id ∧ e.branch = b) ∧ (e.gray = true ∨ s.last < e.version))) : e.version ≤ s.bar := by
  refine Nat.le_of_not_lt fun hlt => hpassed ⟨hgray.1, .inr ?_⟩
  exact (hf.ahead e List.mem_cons_self hgray hlt).2

/-- What is taken, and is newer than where the stream starts, is newer than all that has been sent. -/
theorem Follows.told_lt (hf : s.Follows id b applied active (e :: queue) rest) (hr : s.replay = []) (hgray : NonGray id b e)
    (hlast : s.last < e.version) (hafter : s.after < e.version) : ∀ v ∈ s.told, v < e.version := by
  by_cases hlt : s.bar < e.version
  · exact (hf.ahead e List.mem_cons_self hgray hlt).1
  · -- all that it has known from the start has been replayed, and is no newer than `last`
    rcases le_bar.mp (Nat.le_of_not_lt hlt) with hle | ⟨x, hx, hle⟩
    · omega
    · rw [hr, List.append_nil] at hx
      have := hf.caught x hx
      omega

theorem InOrder.receive (ho : s.InOrder) (hf : s.Follows id b applied active (e :: queue) rest) (hr : s.replay = []) :
    (s.receive id b (.value e)).InOrder := by
  rcases receive_cases id b s e with ⟨hof, htaken, heq⟩ | ⟨-, heq⟩
  · rw [heq]
    refine ⟨ho.replays, ho.since, ?_, fun h => absurd hr h⟩
    rw [told_take]
    cases hgray : e.gray with
    | true => simpa using ho.told
    | false =>
      have hlast : s.last < e.version := by simpa [hgray] using htaken
      exact filter_snoc_pairwise ho.told fun hafter => hf.told_lt hr ⟨hof, hgray⟩ hlast hafter
  · rw [heq]
    exact ho

theorem Follows.receive (hf : s.Follows id b applied active (e :: queue) rest) (hr : s.replay = []) :
    (s.receive id b (.value e)).Follows id b applied active queue rest := by
  have hqueue : ∀ x ∈ queue ++ rest, x ∈ e :: queue ++ rest := fun x hx => List.mem_cons_of_mem _ hx
  have hinLine := List.pairwise_cons.mp hf.inLine
  rcases receive_cases id b s e with ⟨hof, htaken, heq⟩ | ⟨hpassed, heq⟩
  · have hafter : ∀ x ∈ queue ++ rest, s.Before id b e x := by
      intro x hx
      rcases List.mem_append.mp hx with hx | hx
      · exact hinLine.1 x hx
      · exact hf.behind e List.mem_cons_self x hx
    have hbound := hf.upTo e List.mem_cons_self hof
    rw [heq]
    refine ⟨hf.known, ?_, ?_, ?_, fun _ x hx => ?_, fun x hx hgray hlt => ?_, hinLine.2,
      fun x hx => hf.behind x (List.mem_cons_of_mem _ hx), fun x hx => hf.upTo x (List.mem_cons_of_mem _ hx), ?_⟩
    · rw [told_take]
      intro v hv
      rcases List.mem_append.mp hv with hv | hv
      · exact hf.told v hv
      · split at hv
        · cases hv
        · rw [List.mem_singleton.mp hv]
          exact Nat.le_trans hbound (Nat.le_max_right _ _)
    · cases s.way with
      | sse => exact hf.last
      | grpc => exact max_le hf.last (Nat.le_trans hbound (Nat.le_max_right _ _))
    · intro x hx
      cases s.way with
      | sse => exact hf.caught x hx
      | grpc => exact Nat.le_trans (hf.caught x hx) (Nat.le_max_left _ _)
    · rw [show s.replay = [] from hr] at hx
      cases hx
    · obtain ⟨htold, hlast⟩ := hf.ahead x (hqueue x hx) hgray hlt
      have hnext := hafter x hx hof hgray hlt
      rw [told_take]
      constructor
      · intro v hv
        rcases List.mem_append.mp hv with hv | hv
        · exact htold v hv
        · split at hv
          · cases hv
          · rw [List.mem_singleton.mp hv]
            exact hnext.resolve_left fun h => absurd h.2 ‹_›
      · simp only
        cases hway : s.way with
        | sse => exact hlast
        | grpc => exact max_lt hlast (hnext.resolve_left fun h => by rw [hway] at h; cases h.1)
    · intro v hv hlt
      rw [told_take]
      rcases hf.covers v hv hlt with h | h | ⟨hbar, h⟩
      · exact .inl (List.mem_append_left _ h)
      · exact .inr (.inl h)
      · obtain ⟨x, hx, hgray, rfl⟩ := mem_versionsOf.mp h
        rcases List.mem_cons.mp hx with rfl | hx
        · refine .inl (List.mem_append_right _ ?_)
          rw [hgray.2]
          exact List.mem_singleton_self _
        · exact .inr (.inr ⟨hbar, mem_versionsOf.mpr ⟨x, hx, hgray, rfl⟩⟩)
  · rw [heq]
    refine ⟨hf.known, hf.told, hf.last, hf.caught, hf.fixed, fun x hx => hf.ahead x (hqueue x hx), hinLine.2,
      fun x hx => hf.behind x (List.mem_cons_of_mem _ hx), fun x hx => hf.upTo x (List.mem_cons_of_mem _ hx), ?_⟩
    intro v hv hlt
    refine (hf.covers v hv hlt).imp_right (Or.imp_right ?_)
    intro ⟨hbar, h⟩
    obtain ⟨x, hx, hgray, rfl⟩ := mem_versionsOf.mp h
    rcases List.mem_cons.mp hx with rfl | hx
    · exact absurd (hf.le_bar_of_passed hgray hpassed) (Nat.not_le_of_lt hbar)
    · exact ⟨hbar, mem_versionsOf.mpr ⟨x, hx, hgray, rfl⟩⟩

/-! ## Gray events -/

section
variable {grays : List PublishEvent}

theorem Owes.announce (h : s.Owes grays queue rest) : s.Owes (grays ++ graysOf events id b) queue (rest ++ events) := by
  intro e he
  rw [← List.append_assoc]
  rcases List.mem_append.mp he with he | he
  · exact (h e he).imp_right (List.mem_append_left _)
  · exact .inr (List.mem_append_right _ (mem_graysOf.mp he).1)

theorem Owes.hear (h : s.Owes grays queue rest) (hmem : ∀ x, x ∈ rest ↔ x = e ∨ x ∈ rest') :
    s.Owes grays (queue ++ [e]) rest' := by
  intro x hx
  refine (h x hx).imp_right fun hin => ?_
  simpa only [List.mem_append, List.mem_singleton, hmem, or_assoc] using hin

theorem Owes.miss (h : s.Owes grays [] rest) (hgray : ∀ x ∈ grays, OfGray id b x)
    (hmem : ∀ x, x ∈ rest ↔ x = e ∨ x ∈ rest') (hknown : OfGray id b e → s.Shows e) : s.Owes grays [] rest' := by
  intro x hx
  rcases h x hx with hshows | hin
  · exact .inl hshows
  · rcases (hmem x).mp hin with rfl | hin
    · exact .inl (hknown (hgray x hx))
    · exact .inr hin

theorem Owes.next (h : s.Owes grays queue rest) (hnext : s.next = some s') : s'.Owes grays queue rest := by
  rcases next_cases hnext with ⟨x, replay, hs, rfl⟩ | ⟨-, rfl⟩
  · intro e he
    simp only [Shows, replayed_eq hs]
    exact h e he
  · exact h

theorem Owes.receive (h : s.Owes grays (e :: queue) rest) (hgray : ∀ x ∈ grays, OfGray id b x) :
    (s.receive id b (.value e)).Owes grays queue rest := by
  intro x hx
  rcases receive_cases id b s e with ⟨-, -, heq⟩ | ⟨hpassed, heq⟩
  · rw [heq]
    rcases h x hx with hshows | hin
    · refine .inl ?_
      simp only [Shows, ← List.append_assoc]
      exact List.mem_append_left _ hshows
    · rcases List.mem_cons.mp hin with rfl | hin
      · exact .inl (by simp [Shows])
      · exact .inr hin
  · rw [heq]
    refine (h x hx).imp_right fun hin => (List.mem_cons.mp hin).resolve_left ?_
    rintro rfl
    exact hpassed ⟨(hgray x hx).1, .inl (hgray x hx).2⟩

end

end WatchStream

/-! ## Streams that have read the history -/

section
variable [SerdeJson] {t : Store} {hist : List VersionRecord} {after : Nat}

structure WatchStream.Opened (hist : List VersionRecord) (s : WatchStream) : Prop where
  fresh : s.replayed = [] ∧ s.live = []
  replay : s.required = false ∨ s.replay ≠ [] → s.replay.map (·.version) = versionsSince s.after hist
  last : s.last ≤ s.bar
  fixed : s.way = .sse → ∀ e ∈ s.replay, e.version ≤ s.last

omit [SerdeJson] in
theorem WatchStream.Opened.told (h : s.Opened hist) : s.told = [] := by
  rw [WatchStream.told, h.fresh.1, h.fresh.2]
  rfl

omit [SerdeJson] in
theorem map_seen_version (events : List PublishEvent) :
    (events.map (·.seen)).map (·.version) = events.map (·.version) := by
  rw [List.map_map]
  rfl

theorem sseStream_opened (hafter : 0 < after) (hhist : (versionHistory id b).eval t = .ok hist)
    (hread : ∀ r ∈ hist, after < r.no → ∃ snap, (snapshotOf id b r.no).eval t = .ok snap) :
    (sseStream t id b after).Opened hist := by
  have hreplay : sseReplay t id b after = (sseEvents t id b after hist ∅, startPruned after hist) := by
    rw [sseReplay, if_pos hafter, hhist]
  have hversions : ((sseReplay t id b after).1.map (·.seen)).map (·.version) = versionsSince after hist := by
    rw [map_seen_version, hreplay]
    exact sseEvents_versions hread
  refine ⟨⟨rfl, rfl⟩, fun _ => hversions, ?_, fun _ e he => ?_⟩
  · refine foldr_max_le.mpr ⟨Nat.zero_le _, fun v hv => le_bar.mpr (.inr ?_)⟩
    rw [← map_seen_version] at hv
    obtain ⟨x, hx, rfl⟩ := List.mem_map.mp hv
    exact ⟨x, hx, Nat.le_refl _⟩
  · refine le_foldr_max.mpr (.inr ⟨e.version, ?_, Nat.le_refl _⟩)
    rw [← map_seen_version]
    exact List.mem_map_of_mem he

theorem grpcStream_opened (hafter : 0 < after) (hhist : (versionHistory id b).eval t = .ok hist)
    (h : grpcStream t id b after = .ok s) : s.Opened hist ∧ s.way = .grpc ∧ s.after = after ∧ s.ended = false := by
  obtain ⟨⟨replay, required⟩, hreplay, h⟩ := Result.bind_ok.mp h
  obtain rfl := Except.ok.inj h
  rw [grpcReplay, if_pos hafter, hhist] at hreplay
  obtain ⟨_, hh, hreplay⟩ := Result.bind_ok.mp hreplay
  obtain rfl := Except.ok.inj hh
  obtain ⟨events, hevents, hreplay⟩ := Result.bind_ok.mp hreplay
  obtain ⟨rfl, rfl⟩ := Prod.mk.inj (Except.ok.inj hreplay)
  refine ⟨⟨⟨rfl, rfl⟩, fun hrep => ?_, le_bar.mpr (.inl (Nat.le_refl _)), fun hway => ?_⟩, rfl, rfl, rfl⟩
  · have hno : startPruned after hist = false := by
      rcases hrep with hrep | hrep
      · exact hrep
      · by_contra hpruned
        exact hrep (if_pos (by simpa using hpruned))
    simp only [hno, Bool.false_eq_true, if_false]
    rw [List.map_map]
    exact grpcEvents_versions hevents
  · cases hway

omit [SerdeJson] in
theorem WatchStream.Opened.inOrder (h : s.Opened hist) (hstrict : hist.Pairwise fun r r' => r.no < r'.no) : s.InOrder := by
  have hreplays : s.replayed ++ s.replay = s.replay := by rw [h.fresh.1, List.nil_append]
  refine ⟨?_, ?_, ?_, fun _ => h.fresh.2⟩
  · rw [hreplays]
    by_cases hnil : s.replay = []
    · rw [hnil]
      exact .nil
    · rw [h.replay (.inr hnil)]
      exact versionsSince_strict hstrict
  · rw [hreplays]
    intro e he
    have hmem : e.version ∈ s.replay.map (·.version) := List.mem_map_of_mem he
    rw [h.replay (.inr (List.ne_nil_of_mem he))] at hmem
    exact (mem_versionsSince.mp hmem).1
  · rw [h.told]
    exact .nil

omit [SerdeJson] in
theorem WatchStream.Opened.follows (h : s.Opened hist) (hreq : s.required = false)
    (hbound : ∀ r ∈ hist, r.no ≤ active) (happlied : ∀ v ∈ applied, ∃ r ∈ hist, r.no = v) :
    s.Follows id b applied active [] rest := by
  have hreplays : s.replayed ++ s.replay = s.replay := by rw [h.fresh.1, List.nil_append]
  have hreplay := h.replay (.inl hreq)
  refine ⟨?_, ?_, Nat.le_trans h.last (Nat.le_max_left _ _), ?_, h.fixed, fun e _ _ hlt => ⟨?_, ?_⟩, .nil,
    fun _ he => absurd he List.not_mem_nil, fun _ he => absurd he List.not_mem_nil, fun v hv hlt => .inr (.inl ?_)⟩
  · rw [hreplays]
    intro e he
    have hmem : e.version ∈ s.replay.map (·.version) := List.mem_map_of_mem he
    rw [hreplay] at hmem
    obtain ⟨-, r, hr, hno⟩ := mem_versionsSince.mp hmem
    exact hno ▸ hbound r hr
  · rw [h.told]
    exact fun _ hv => absurd hv List.not_mem_nil
  · rw [h.fresh.1]
    exact fun _ he => absurd he List.not_mem_nil
  · rw [h.told]
    exact fun _ hv => absurd hv List.not_mem_nil
  · exact Nat.lt_of_le_of_lt h.last hlt
  · rw [hreplay]
    exact mem_versionsSince.mpr ⟨hlt, happlied v hv⟩

end

end Defing
