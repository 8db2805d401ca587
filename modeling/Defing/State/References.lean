import Defing.State.Library

/-!
# Bindings refer to what is there

A draft update binds, a new branch takes over the bindings of its source, a
structure that is published keeps those that fit it, and a shared item that is
bound is not deleted. `binds_apply` says where a binding comes from.
-/

namespace Defing

open KV (Prog Plain segments)

section
variable [SerdeJson] {id : ProjectId} {b : BranchName} {t : Store} {br br' : Branch} {cmd : Command} {now : Int} {g k rk : String}

def Binds (t : Store) (id : ProjectId) (g k rk : String) : Prop :=
  ∃ b st, stateOf t id b = some st ∧ item? st.sharedBindings g k = some rk

/-! ## Where a binding comes from -/

/-- The binding is one of the project, or one that the draft update `cmd` makes. -/
def BoundBy (t : Store) (cmd : Command) (id : ProjectId) (g k rk : String) : Prop :=
  Binds t id g k rk ∨ (∃ b us ds bs o ts rev, cmd = .draftUpdate id b us ds bs o ts rev) ∧
    ∃ struct, structOf t id = some struct ∧ Bindable t (itemIndex struct) g k rk

def BindingsFrom (t : Store) (cmd : Command) (id : ProjectId) (br : Branch) : Prop :=
  ∀ st, br.state = some st → ∀ g k rk, item? st.sharedBindings g k = some rk → BoundBy t cmd id g k rk

theorem Move.bindingsFrom {events : List PublishEvent} {ws : List VersionWrite} (h : Move t id b cmd br events ws br')
    (hb : BindingsFrom t cmd id br) : BindingsFrom t cmd id br' := by
  intro st' hst' g k rk hk
  cases h with
  | create hs h =>
    cases hst'
    cases h with
    | bare v =>
      change item? (∅ : Bindings) g k = some rk at hk
      rw [item?_empty] at hk
      cases hk
    | copy at_ hsrc hsnap => exact .inl ⟨_, _, hsrc, hk⟩
  | edit hat hs h =>
    cases hst'
    cases h with
    | draft at_ hrev hstruct hus hbind =>
      rcases bindings_ok _ hbind hk with hk | hk
      · exact hb _ hs g k rk hk
      · exact .inr ⟨⟨_, _, _, _, _, _, _, rfl⟩, _, hstruct, hk⟩
    | grayPublish => exact hb _ hs g k rk hk
    | grayAbort => exact hb _ hs g k rk hk
  | release record hs ho h =>
    cases hst'
    cases h with
    | publish => exact hb _ hs g k rk hk
    | rollback => exact hb _ hs g k rk hk
    | grayPromote => exact hb _ hs g k rk hk
    | restructure hat hpub hstruct hdraft hbind => exact hb _ hs g k rk ((hbind g k rk).mp hk).1
    | cascade => exact hb _ hs g k rk hk

theorem Binds.project (hr : Rooted t) (ht : WellPlaced t) (h : Binds t id g k rk) :
    (entity Project t (projectKey id)).isSome ∧ ∃ b, Bound t rk id b := by
  obtain ⟨b, st, hst, hk⟩ := h
  have hp := hr id b (named_of_stateOf ht hst) (by rw [hst]; rfl)
  exact ⟨hp, b, hp, st, g, k, hst, hk⟩

theorem structOf_same (hi : Plain id) {t' : Store} (h : SameProject t t' id) : structOf t' id = structOf t id := by
  refine entity_congr (h _ (keyOfProject_structKey id) fun tail e => ?_)
  rw [segments_structKey hi] at e
  simp at e

theorem structOf_of_error (ht : WellPlaced t) (hi : Plain id) {e : Error} (h : (apply cmd now t).result = .error e) :
    structOf (apply cmd now t).store id = structOf t id := by
  refine entity_congr (row_of_error ht h fun key e => ?_)
  have := congrArg segments e
  simp [segments_structKey hi, segments_sharedDraftKey] at this

/-- The structure of a project that is there, and stays, changes only by its publication. -/
theorem structOf_kept (ht : WellPlaced t) (hi : Plain id) (hp : (entity Project t (projectKey id)).isSome)
    (hc : ¬ removesBranches cmd) (hpub : ¬ ∃ c r o ts policy, cmd = .publishStructure id c r o ts policy) (now : Int) :
    structOf (apply cmd now t).store id = structOf t id := by
  have hstruct := structOf_apply ht hi cmd now
  generalize structOf (apply cmd now t).store id = o at hstruct
  cases hstruct with
  | kept => rfl
  | deleted hcmd => subst hcmd; exact absurd trivial hc
  | created hcmd hnone => rw [hnone] at hp; cases hp
  | published hcmd => subst hcmd; exact absurd ⟨_, _, _, _, _, rfl⟩ hpub

/-- A structure that is published prunes the draft of each branch, and keeps the bindings that fit. -/
theorem apply_restructured (ht : WellPlaced t) {c r o : String} {ts : Int} {policy : PublishPolicy}
    {events : List PublishEvent} (h : (apply (.publishStructure id c r o ts policy) now t).result = .ok events)
    (hn : Named id b) {st' : BranchState}
    (hst' : stateOf (apply (.publishStructure id c r o ts policy) now t).store id b = some st') :
    ∃ st struct, stateOf t id b = some st ∧
      structOf (apply (.publishStructure id c r o ts policy) now t).store id = some struct ∧
      st'.valueDraft = rereadDraft (pruneDraft struct st.valueDraft) ∧
      ∀ g k rk, item? st'.sharedBindings g k = some rk ↔ item? st.sharedBindings g k = some rk ∧ Fits t struct g k rk := by
  obtain ⟨s, hs, hstore, -⟩ := apply_ok h
  rw [hstore] at hst' ⊢
  obtain ⟨struct, draft, hstruct, hdraft, -, hnew, -, -, hmoves⟩ := applyPublishStructure_moves (o := o) ht ts hs
  rcases hmoves b hn with ⟨hnone, hsame⟩ | ⟨hsome, event, ws, hmove⟩
  · rw [← state_branchAt, hsame, state_branchAt, hnone] at hst'
    cases hst'
  · rw [← state_branchAt] at hst'
    generalize hbr : branchAt s.kv id b = br' at hmove hst'
    cases hmove with
    | edit hat hs h => cases h
    | release record hs ho h =>
      cases hst'
      cases h with
      | restructure hat hpub hstruct' hdraft' hbind =>
        obtain rfl := Option.some.inj (hdraft.symm.trans hdraft')
        obtain rfl := Option.some.inj (hstruct.symm.trans hstruct')
        exact ⟨_, _, hs, hnew, rfl, hbind⟩

/-- A binding was there and the structure stays; or it is made, to a published item of its type; or it was
there and fits the structure that is published. -/
theorem binds_apply (ht : WellPlaced t) (hr : Rooted t) (cmd : Command) (now : Int)
    (h : Binds (apply cmd now t).store id g k rk) :
    (Binds t id g k rk ∧ structOf (apply cmd now t).store id = structOf t id) ∨
      (sharedOf (apply cmd now t).store rk = sharedOf t rk ∧ ∃ struct, structOf t id = some struct ∧
        structOf (apply cmd now t).store id = some struct ∧ Bindable t (itemIndex struct) g k rk) ∨
      (sharedOf (apply cmd now t).store rk = sharedOf t rk ∧ Binds t id g k rk ∧
        ∃ struct, structOf (apply cmd now t).store id = some struct ∧ Fits t struct g k rk) := by
  obtain ⟨b, st', hst', hk⟩ := h
  have hn := named_of_stateOf (wellPlaced_apply ht cmd now) hst'
  have hi := hn.plain.1
  have hshared := sharedOf_apply ht cmd now rk
  by_cases hc : removesBranches cmd
  · rcases apply_removes ht hc now hn with ⟨hb, hp⟩ | hb
    · rw [← state_branchAt, hb] at hst'
      exact .inl ⟨⟨b, st', hst', hk⟩, structOf_same hi hp⟩
    · rw [← state_branchAt, hb] at hst'
      cases hst'
  by_cases hpub : ∃ c r o ts policy, cmd = .publishStructure id c r o ts policy
  · obtain ⟨c, r, o, ts, policy, rfl⟩ := hpub
    cases hres : (apply (.publishStructure id c r o ts policy) now t).result with
    | error e =>
      rw [← state_branchAt, branchAt_of_error ht hres hn] at hst'
      exact .inl ⟨⟨b, st', hst', hk⟩, structOf_of_error ht hi hres⟩
    | ok events =>
      -- the branch was there: it has been moved to the new structure
      obtain ⟨st, struct, hst, hnew, -, hbind⟩ := apply_restructured ht hres hn hst'
      obtain ⟨hold, hfits⟩ := (hbind g k rk).mp hk
      exact .inr (.inr ⟨hshared.eq_of not_false, ⟨b, st, hst, hold⟩, struct, hnew, hfits⟩)
  · have hfrom : BindingsFrom t cmd id (branchAt (apply cmd now t).store id b) :=
      (apply_course ht hr hc now).invariant (I := fun id _ br => BindingsFrom t cmd id br)
        (fun _ hb hm => hm.bindingsFrom hb) (fun id b _ st hst g k rk hk => .inl ⟨b, st, hst, hk⟩) id b hn
    rcases hfrom st' hst' g k rk hk with hold | ⟨⟨b, us, ds, bs, o, ts, rev, rfl⟩, struct, hstruct, hbindable⟩
    · exact .inl ⟨hold, structOf_kept ht hi (hold.project hr ht).1 hc hpub now⟩
    · refine .inr (.inl ⟨hshared.eq_of not_false, struct, hstruct, ?_, hbindable⟩)
      rw [← hstruct]
      exact entity_congr (apply_frame ht _ now (not_under_structKey hi))

/-! ## References -/

/-- The item is shared in the structure of the project, and what it is bound to is published. -/
def Refers (t : Store) (id : ProjectId) (g k rk : String) : Prop :=
  (∃ struct, structOf t id = some struct ∧ sharedIn struct g k) ∧ ∃ item, sharedOf t rk = some item

theorem Bindable.sharedIn {struct : Structure} (h : Bindable t (itemIndex struct) g k rk) : sharedIn struct g k := by
  obtain ⟨d, item, hd, hs, -⟩ := h
  obtain ⟨hm, hk⟩ := mem_of_itemIndex hd
  exact sharedIn_iff.mpr ⟨d, hm, hk, hs⟩

theorem Fits.sharedIn {struct : Structure} (h : Fits t struct g k rk) : sharedIn struct g k := by
  obtain ⟨ty, item, hty, -⟩ := h
  obtain ⟨d, hm, hk, hs, -⟩ := mem_of_sharedItems hty
  exact sharedIn_iff.mpr ⟨d, hm, hk, hs⟩

theorem published_apply (ht : WellPlaced t) (hr : Rooted t) (cmd : Command) (now : Int) (hb : Binds t id g k rk)
    (h : ∃ item, sharedOf t rk = some item) : ∃ item, sharedOf (apply cmd now t).store rk = some item := by
  have hafter := sharedOf_apply ht cmd now rk
  generalize sharedOf (apply cmd now t).store rk = o at hafter
  cases hafter with
  | kept => exact h
  | published => exact ⟨_, rfl⟩
  | deleted hcmd hfree =>
    obtain ⟨b, hbound⟩ := (hb.project hr ht).2
    exact absurd hbound (hfree id b)

theorem refers_apply (ht : WellPlaced t) (hr : Rooted t) (cmd : Command) (now : Int)
    (h : ∀ id g k rk, Binds t id g k rk → Refers t id g k rk) :
    ∀ id g k rk, Binds (apply cmd now t).store id g k rk → Refers (apply cmd now t).store id g k rk := by
  intro id g k rk hb
  rcases binds_apply ht hr cmd now hb with ⟨hold, hstruct⟩ | ⟨hshared, struct, -, hstruct, hbind⟩ |
    ⟨hshared, -, struct, hstruct, hfits⟩
  · obtain ⟨hs, hpub⟩ := h id g k rk hold
    exact ⟨hstruct ▸ hs, published_apply ht hr cmd now hold hpub⟩
  · refine ⟨⟨struct, hstruct, hbind.sharedIn⟩, ?_⟩
    obtain ⟨-, item, -, -, hitem, -⟩ := hbind
    exact ⟨item, hshared.trans hitem⟩
  · refine ⟨⟨struct, hstruct, hfits.sharedIn⟩, ?_⟩
    obtain ⟨-, item, -, hitem, -⟩ := hfits
    exact ⟨item, hshared.trans hitem⟩

theorem not_binds_empty : ¬ Binds ∅ id g k rk := by
  rintro ⟨b, st, hst, -⟩
  simp [stateOf, entity] at hst

theorem refers_reach {allowed : Store → Command → Int → Prop} (h : Reach allowed t) :
    ∀ id g k rk, Binds t id g k rk → Refers t id g k rk := by
  induction h with
  | empty => exact fun _ _ _ _ hb => absurd hb not_binds_empty
  | step cmd now hreach _ ih => exact refers_apply (wellPlaced_of_reach hreach) (rooted_reach hreach) cmd now ih

theorem getStructure_eval (ht : WellPlaced t) (hi : Plain id) : (getStructure id).eval t = .ok (structOf t id) := by
  rw [getStructure, loadMerged, readAs_eval, parseRow_ok]
  exact reads_structKey ht hi

/-- Every binding is to a published shared item, of an item that the structure has and marks as shared. A
publication finds what the binding refers to. -/
theorem binding_refers {allowed : Store → Command → Int → Prop} (h : Reach allowed t) {st : BranchState}
    (hst : stateOf t id b = some st) (hk : item? st.sharedBindings g k = some rk) :
    (∃ item, (getShared rk).eval t = .ok (some item)) ∧
      (∃ struct d, (getStructure id).eval t = .ok (some struct) ∧ (g, d) ∈ struct.allItems ∧ d.key = k ∧
        d.shared = true) ∧
      ∀ acc d, d.key = k → ∃ acc', (resolveShared st.sharedBindings acc (g, d)).eval t = .ok acc' ∧
        (acc'.2 = acc.2 ∨ ∃ e, acc'.2 = acc.2 ++ [e] ∧ e ≠ s!"{g}/{k}: shared item {rk} 缺失（悬空引用）") := by
  have ht := wellPlaced_of_reach h
  have hi := (named_of_stateOf ht hst).plain.1
  obtain ⟨⟨struct, hstruct, hshared⟩, item, hitem⟩ := refers_reach h id g k rk ⟨b, st, hst, hk⟩
  have hread : (getShared rk).eval t = .ok (some item) := by rw [getShared_eval ht, hitem]
  obtain ⟨d, hm, hdk, hs⟩ := sharedIn_iff.mp hshared
  refine ⟨⟨item, hread⟩, ⟨struct, d, by rw [getStructure_eval ht hi, hstruct], hm, hdk, hs⟩, ?_⟩
  rintro acc d rfl
  have hro : (getShared rk).ReadOnly := loadMerged_readOnly _
  by_cases hs : d.shared
  · simp only [resolveShared, hs, if_true, hk]
    rw [hro.eval_bind_ok hread]
    dsimp only
    split
    · refine ⟨_, rfl, .inr ⟨_, rfl, fun e => ?_⟩⟩
      -- past the group and the key the two texts begin with different letters
      have h := String.toList_inj.mpr e
      simp only [String.toList_append, List.append_assoc, List.append_cancel_left_eq] at h
      simp [toString] at h
    · exact ⟨_, rfl, .inl rfl⟩
  · refine ⟨acc, ?_, .inl rfl⟩
    rw [resolveShared, if_neg hs]
    rfl

end

section
attribute [local instance] sampleJson

/-- A shared item, published, and a project whose branch `dev` binds an item to it. -/
def boundLog : List (Command × Int) := [
  (.projectCreate "p" "" 0 none, 1),
  (.structureDraftSet "p" 1 [{ name := "g", items := [{ key := "k", ty := .string, shared := true }] }] "", 2),
  (.publishStructure "p" "" "r0" "" 0 .block, 3),
  (.sharedDraftUpdate { key := "s", ty := .string, value := .string "v", version := 0 } "", 4),
  (.sharedPublish "" "r1" "" 0 .auto .block, 5),
  (.draftUpdate "p" "dev" [] [] [⟨"g", "k", "s"⟩] "" 0 none, 6)]

theorem binding_refers_sample :
    (∃ item, (getShared "s").eval (runLog boundLog) = .ok (some item)) ∧
      ∃ struct d, (getStructure "p").eval (runLog boundLog) = .ok (some struct) ∧ ("g", d) ∈ struct.allItems ∧
        d.key = "k" ∧ d.shared = true := by
  have hbound : (stateOf (runLog boundLog) "p" "dev").map (fun st => item? st.sharedBindings "g" "k") = some (some "s") := by
    decide +kernel
  obtain ⟨st, hst, hk⟩ := Option.map_eq_some_iff.mp hbound
  have h := binding_refers (reachable_runLog boundLog) hst hk
  exact ⟨h.1, h.2.1⟩

end

end Defing
