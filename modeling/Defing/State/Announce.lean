import Defing.State.Append

/-!
# What events announce

The events of a command say where it takes a branch: those that are not gray
name versions past the active one, in their order, and none names a version
past the one the branch comes to.
-/

namespace Defing

open KV (Prog)

variable [SerdeJson] {id : ProjectId} {b : BranchName} {t : Store} {s s' : State} {br br' br'' : Branch} {cmd : Command} {now : Int}
  {events events' : List PublishEvent} {ws : List VersionWrite}

def eventsOf (events : List PublishEvent) (id : ProjectId) (b : BranchName) : List PublishEvent :=
  events.filter fun e => e.project = id ∧ e.branch = b

/-- What is not gray and comes later is of a later version. -/
def Precedes (e e' : PublishEvent) : Prop := e'.gray = false → e.version < e'.version

structure Announces (br : Branch) (events : List PublishEvent) (br' : Branch) : Prop where
  le : br.activeNo ≤ br'.activeNo
  kept : ∀ n, br (.record n) ≠ none → br' (.record n) ≠ none
  upTo : ∀ e ∈ events, e.version ≤ br'.activeNo
  made : ∀ e ∈ events, e.gray = false → br.activeNo < e.version ∧ br' (.record e.version) ≠ none
  ordered : events.Pairwise Precedes

theorem Announces.refl (br : Branch) : Announces br [] br :=
  ⟨Nat.le_refl _, fun _ h => h, fun _ h => absurd h List.not_mem_nil, fun _ h => absurd h List.not_mem_nil, .nil⟩

theorem Announces.trans (h : Announces br events br') (h' : Announces br' events' br'') : Announces br (events ++ events') br'' where
  le := Nat.le_trans h.le h'.le
  kept n hn := h'.kept n (h.kept n hn)
  upTo e he := by
    rcases List.mem_append.mp he with he | he
    · exact Nat.le_trans (h.upTo e he) h'.le
    · exact h'.upTo e he
  made e he hgray := by
    rcases List.mem_append.mp he with he | he
    · obtain ⟨hlt, hrow⟩ := h.made e he hgray
      exact ⟨hlt, h'.kept _ hrow⟩
    · obtain ⟨hlt, hrow⟩ := h'.made e he hgray
      exact ⟨Nat.lt_of_le_of_lt h.le hlt, hrow⟩
  ordered := by
    refine List.pairwise_append.mpr ⟨h.ordered, h'.ordered, ?_⟩
    intro e he e' he' hgray
    exact Nat.lt_of_le_of_lt (h.upTo e he) (h'.made e' he' hgray).1

section

theorem Edit.version {st st' : BranchState} {gray : Nat → Option Stored} (h : Edit t id b br st cmd st' gray events) :
    ∀ e ∈ events, e.version = st.activeVersion ∧ e.gray = true := by
  cases h with
  | draft => exact fun _ h => absurd h List.not_mem_nil
  | grayPublish => exact List.forall_mem_singleton.mpr ⟨rfl, rfl⟩
  | grayAbort => exact List.forall_mem_singleton.mpr ⟨rfl, rfl⟩

theorem Move.announces (h : Move t id b cmd br events ws br') (hb : Bounded br) : Announces br events br' := by
  obtain ⟨hgrows, -⟩ := h.grows
  have hkept : ∀ n, br (.record n) ≠ none → br' (.record n) ≠ none := by
    intro n hn
    by_cases hle : n ≤ br.activeNo
    · rwa [(hgrows.rows n hle).1]
    · exact absurd (hb n (Nat.lt_of_not_le hle)).1 hn
  cases h with
  | create =>
    exact ⟨hgrows.le, hkept, fun _ h => absurd h List.not_mem_nil, fun _ h => absurd h List.not_mem_nil, .nil⟩
  | edit hat hs h =>
    have hno := Branch.activeNo_of_state hs
    refine ⟨hgrows.le, hkept, fun e he => ?_, fun e he hgray => ?_, ?_⟩
    · rw [(h.version e he).1, ← hno]
      exact hgrows.le
    · rw [(h.version e he).2] at hgray
      cases hgray
    · cases h <;> simp
  | @release st st' old new gray event record hs ho h =>
    obtain ⟨hlt, hversion, -⟩ := h.tells_event
    have hno := Branch.activeNo_of_state hs
    refine ⟨hgrows.le, hkept, ?_, ?_, List.pairwise_singleton ..⟩
    · rw [List.forall_mem_singleton, Branch.activeNo_become, hversion]
    · rw [List.forall_mem_singleton, hversion, hno]
      intro _
      exact ⟨hlt, Branch.record_write _ _ _ _ _⟩

theorem Course.announces (h : Course t cmd s events s') (hb : ∀ id b, Named id b → Bounded (branchAt s.kv id b)) :
    ∀ id b, Named id b → Announces (branchAt s.kv id b) (eventsOf events id b) (branchAt s'.kv id b) := by
  induction h with
  | refl s => exact fun id b _ => .refl _
  | quiet hsame _ _ ih =>
    intro id b hn
    rw [← hsame id b hn]
    exact ih (fun id b hn => hsame id b hn ▸ hb id b hn) id b hn
  | @move s s₁ s₂ events events' ws id₀ b₀ hn₀ hmove he hm _ ih =>
    have hb₁ : ∀ id b, Named id b → Bounded (branchAt s₁.kv id b) := by
      intro id b hn
      by_cases e : id = id₀ ∧ b = b₀
      · obtain ⟨rfl, rfl⟩ := e
        exact hmove.grows.2 (hb _ _ hn)
      · rw [branchAt_elsewhere he hn e]
        exact hb id b hn
    intro id b hn
    have hrest := ih hb₁ id b hn
    have hsplit : eventsOf (events ++ events') id b = eventsOf events id b ++ eventsOf events' id b := List.filter_append ..
    rw [hsplit]
    by_cases e : id = id₀ ∧ b = b₀
    · obtain ⟨rfl, rfl⟩ := e
      have hall : eventsOf events id b = events :=
        List.filter_eq_self.mpr fun e he => by simp [hmove.ofBranch.1 e he]
      rw [hall]
      exact (hmove.announces (hb _ _ hn)).trans hrest
    · have hnone : eventsOf events id b = [] := by
        refine List.filter_eq_nil_iff.mpr fun ev hev h => e ?_
        have hof := of_decide_eq_true h
        rw [(hmove.ofBranch.1 ev hev).1, (hmove.ofBranch.1 ev hev).2] at hof
        exact ⟨hof.1.symm, hof.2.symm⟩
      rw [hnone, List.nil_append, ← branchAt_elsewhere he hn e]
      exact hrest

theorem emitted_of_removes (hc : removesBranches cmd) (now : Int) (t : Store) : (apply cmd now t).emitted = [] := by
  have hnone : ∀ events s, execute cmd now t = (.ok events, s) → events = [] := by
    intro events s h
    cases cmd <;> try exact hc.elim
    case projectDelete p o =>
      simp only [execute, applyInner, applyProjectDelete, Prog.exec_bind_ok] at h
      obtain ⟨_, _, _, _, _, _, _, _, _, _, _, _, _, _, _, _, _, _, h⟩ := h
      exact (pure_ok.mp h).1.symm
    case branchDelete p b o =>
      simp only [execute, applyInner, applyBranchDelete, Prog.exec_bind_ok] at h
      obtain ⟨_, _, _, _, _, _, _, _, _, _, _, _, _, _, _, h⟩ := h
      exact (pure_ok.mp h).1.symm
  unfold Outcome.emitted
  split
  · rename_i events hresult
    obtain ⟨s, hs, -⟩ := apply_ok hresult
    exact hnone events s hs
  · rfl

/-- A command that leaves a branch where there is one announces where it takes it. -/
theorem apply_announces (h : Reachable t) (hn : Named id b)
    (hkeep : stateOf t id b ≠ none → stateOf (apply cmd now t).store id b ≠ none) :
    Announces (branchAt t id b) (eventsOf (apply cmd now t).emitted id b) (branchAt (apply cmd now t).store id b) := by
  have ht := wellPlaced_of_reach h
  by_cases hc : removesBranches cmd
  · have hsame : branchAt (apply cmd now t).store id b = branchAt t id b := by
      rcases apply_removes ht hc now hn with ⟨hsame, -⟩ | hempty
      · exact hsame
      · have hgone : stateOf (apply cmd now t).store id b = none := by
          rw [← state_branchAt, hempty]
          rfl
        have hnone : stateOf t id b = none := by
          by_contra hsome
          exact hkeep hsome hgone
        rw [hempty, empty_of_reach h hn hnone]
    rw [emitted_of_removes hc, hsame]
    exact .refl _
  · exact (apply_course ht (rooted_reach h) hc now).announces (fun _ _ hn => bounded_reach h hn) id b hn

theorem emitted_named (h : Reachable t) (cmd : Command) (now : Int) :
    ∀ e ∈ (apply cmd now t).emitted, Named e.project e.branch := by
  have ht := wellPlaced_of_reach h
  by_cases hc : removesBranches cmd
  · rw [emitted_of_removes hc]
    exact fun _ h => absurd h List.not_mem_nil
  · refine ((apply_course ht (rooted_reach h) hc now).invariant_events (I := fun _ _ _ => True) ?_ fun _ _ _ => trivial).2
    intro id b br events ws br' hn _ hmove
    refine ⟨trivial, fun e he => ?_⟩
    obtain ⟨rfl, rfl⟩ := hmove.ofBranch.1 e he
    exact hn

end

end Defing
