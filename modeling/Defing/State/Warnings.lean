import Defing.State.Conform

/-!
# The warnings of a publication

A publication under the policy that warns goes through in spite of errors, and
its caller is told of them. The service computes what it tells from the branch
as it reads it afterwards, when the draft has gone into the version.
-/

namespace Defing

open KV (Prog)

variable {id : ProjectId} {b : BranchName} {t t' later : Store} {s s' : State} {events : List PublishEvent}
  {struct : Structure} {bindings : Bindings} {draft : ValueDraft} {item : ItemDef} {g : String}

/-! ## Lists and texts -/

theorem getLast?_append {a l : String} (h : l.toList ≠ []) : (a ++ l).toList.getLast? = l.toList.getLast? := by
  rw [String.toList_append, List.getLast?_append_of_ne_nil _ h]

theorem length_flatMap_eq {α β : Type} {f g : α → List β} {l : List α} (hle : ∀ a ∈ l, (f a).length ≤ (g a).length)
    (h : (l.flatMap f).length = (l.flatMap g).length) : ∀ a ∈ l, (f a).length = (g a).length := by
  have hsum : ∀ {l : List α}, (∀ a ∈ l, (f a).length ≤ (g a).length) → (l.flatMap f).length ≤ (l.flatMap g).length := by
    intro l
    induction l with
    | nil => intro _; exact Nat.le_refl _
    | cons a l ih =>
      intro hle
      have := ih fun b hb => hle b (by simp [hb])
      have := hle a (by simp)
      simp only [List.flatMap_cons, List.length_append]
      omega
  induction l with
  | nil => intro a ha; cases ha
  | cons a l ih =>
    have hrest := hsum fun b hb => hle b (List.mem_cons_of_mem _ hb)
    have ha := hle a (by simp)
    simp only [List.flatMap_cons, List.length_append] at h
    have hrec := ih (fun b hb => hle b (by simp [hb])) (by omega)
    intro b hb
    rcases List.mem_cons.mp hb with rfl | hb
    · omega
    · exact hrec b hb

/-! ## The service -/

structure WriteOutcome where
  version : Nat
  events : List PublishEvent

structure PublishOutcome where
  version : Nat
  changes : List DiffEntry
  warnings : List String

section
variable [SerdeJson]

def writeCommand (cmd : Command) (now : Int) (t : Store) : Except Error WriteOutcome × Store :=
  let o := apply cmd now t
  (o.result.map fun events => { version := ((events.head?).map (·.version)).getD 0, events }, o.store)

/-- The version of `PublishService::publish`; `later` are the rows when it reads the branch again. -/
def publishedVersion (id : ProjectId) (b : BranchName) (wr : WriteOutcome) (later : Store) : Except Error Nat :=
  if wr.version > 0 then .ok wr.version
  else ((getBranchState id b).eval later).map fun st => (st.map (·.activeVersion)).getD 0

def publishWarnings (id : ProjectId) (b : BranchName) (policy : PublishPolicy) (later : Store) : Except Error (List String) :=
  if policy = .warn then do
    let st ← (getBranchState id b).eval later
    let struct ← (getStructure id).eval later
    pure (validatePublish ((st.map (·.valueDraft)).getD ∅) (struct.getD { version := 0, groups := [] }))
  else pure []

/-- `PublishService::publish`; the two reads after the write find the rows as they are then. -/
def publishService (policy : PublishPolicy) (id : ProjectId) (b : BranchName) (comment rid operator : String) (ts now : Int)
    (t later later' : Store) : Except Error PublishOutcome × Store :=
  let (wr, t') := writeCommand (.publish id b comment rid operator ts policy) now t
  (do
    let wr ← wr
    let version ← publishedVersion id b wr later
    let warnings ← publishWarnings id b policy later'
    pure { version, changes := ((wr.events.head?).map (·.changes)).getD [], warnings }, t')

/-! ## The errors that are collected -/

def sharedErrors (t : Store) (bindings : Bindings) (e : String × ItemDef) : List String :=
  if e.2.shared then
    match item? bindings e.1 e.2.key with
    | none => [s!"{e.1}/{e.2.key}: 未选择引用共享项"]
    | some rk =>
      match sharedOf t rk with
      | some shared =>
        if shared.ty ≠ e.2.ty then
          [s!"{e.1}/{e.2.key}: 共享项 {rk} 类型 {shared.ty.debug} 与结构声明 {e.2.ty.debug} 不一致"]
        else []
      | none => [s!"{e.1}/{e.2.key}: shared item {rk} 缺失（悬空引用）"]
  else []

def ownErrors (draft : ValueDraft) (e : String × ItemDef) : List String :=
  if e.2.shared then []
  else
    match (item? draft e.1 e.2.key).map (·.value) with
    | none => if e.2.required then [s!"{e.1}/{e.2.key}: required but unset"] else []
    | some v => validateValue e.2 v

def requiredUnset (struct : Structure) : List String :=
  struct.allItems.flatMap fun e => if e.2.shared = false ∧ e.2.required = true then [s!"{e.1}/{e.2.key}: required but unset"] else []

theorem validatePublish_eq (draft : ValueDraft) (struct : Structure) :
    validatePublish draft struct = struct.allItems.flatMap (ownErrors draft) := by
  unfold validatePublish
  rfl

theorem validatePublish_empty (struct : Structure) : validatePublish ∅ struct = requiredUnset struct := by
  rw [validatePublish_eq, requiredUnset]
  congr 1
  funext e
  unfold ownErrors
  by_cases hs : e.2.shared
  · simp [hs]
  · simp [hs, item?]

theorem resolveShared_errors (ht : WellPlaced t) {acc acc' : SnapshotMap × List String} {e : String × ItemDef}
    (h : (resolveShared bindings acc e).eval t = .ok acc') : acc'.2 = acc.2 ++ sharedErrors t bindings e := by
  obtain ⟨g, d⟩ := e
  unfold resolveShared at h
  unfold sharedErrors
  dsimp only at h ⊢
  by_cases hs : d.shared
  · rw [if_pos hs] at h ⊢
    cases hk : item? bindings g d.key with
    | none =>
      rw [hk] at h
      cases h
      rfl
    | some rk =>
      rw [hk] at h
      dsimp only at h ⊢
      have hro : (getShared rk).ReadOnly := loadMerged_readOnly _
      rw [hro.eval_bind_ok (getShared_eval ht rk)] at h
      cases hitem : sharedOf t rk with
      | none =>
        rw [hitem] at h
        cases h
        rfl
      | some shared =>
        rw [hitem] at h
        dsimp only at h ⊢
        by_cases hty : shared.ty ≠ d.ty
        · rw [if_pos hty] at h ⊢
          cases h
          rfl
        · rw [if_neg hty] at h ⊢
          cases h
          simp
  · rw [if_neg hs] at h ⊢
    cases h
    simp

theorem resolveAll_errors (ht : WellPlaced t) (l : List (String × ItemDef)) {acc acc' : SnapshotMap × List String}
    (h : (l.foldlM (resolveShared bindings) acc).eval t = .ok acc') : acc'.2 = acc.2 ++ l.flatMap (sharedErrors t bindings) := by
  induction l generalizing acc with
  | nil =>
    cases h
    simp
  | cons e l ih =>
    rw [List.foldlM_cons, (resolveShared_readOnly bindings acc e).eval_bind] at h
    cases he : (resolveShared bindings acc e).eval t with
    | error err => rw [he] at h; cases h
    | ok acc₁ =>
      rw [he] at h
      rw [ih h, resolveShared_errors ht he, List.flatMap_cons, List.append_assoc]

theorem materialize_errors (ht : WellPlaced t) {st : BranchState} {old new : SnapshotMap} {policy : PublishPolicy}
    {errs : List String} (h : (materializeResolved st struct old policy).eval t = .ok (new, errs)) :
    errs = struct.allItems.flatMap (ownErrors (keepSecrets struct old st.valueDraft)) ++
      struct.allItems.flatMap (sharedErrors t st.sharedBindings) := by
  have hs : (materializeResolved st struct old policy).exec ⟨t, []⟩ = (.ok (new, errs), ⟨t, []⟩) :=
    (materializeResolved_readOnly _ _ _ _).exec_ok.mpr ⟨h, rfl⟩
  obtain ⟨acc, hacc, hs⟩ := (foldlM_readOnly (resolveShared_readOnly _) _ _).exec_bind_ok.mp hs
  obtain ⟨-, hs⟩ := ensure_bind.mp hs
  obtain ⟨he, -⟩ := pure_ok.mp hs
  obtain rfl : acc = (new, errs) := he
  rw [← validatePublish_eq]
  exact resolveAll_errors ht _ hacc

/-! ## Which errors are told apart -/

def EndsUnset (line : String) : Prop := line.toList.getLast? = some 't'

omit [SerdeJson] in
theorem endsUnset (g k : String) : EndsUnset s!"{g}/{k}: required but unset" := by
  unfold EndsUnset
  rw [getLast?_append (by decide)]
  decide

theorem not_endsUnset_of_value {v : Value} {line : String} (h : line ∈ validateValue item v) : ¬ EndsUnset line := by
  unfold EndsUnset
  unfold validateValue at h
  split at h <;> (try split at h) <;> simp only [List.mem_singleton, List.not_mem_nil] at h <;> subst h <;>
    rw [getLast?_append (by decide)] <;> decide

theorem not_endsUnset_of_shared {e : String × ItemDef} {line : String} (h : line ∈ sharedErrors t bindings e) : ¬ EndsUnset line := by
  unfold EndsUnset
  unfold sharedErrors at h
  split at h
  · split at h
    · obtain rfl := List.mem_singleton.mp h
      rw [getLast?_append (by decide)]
      decide
    · split at h
      · split at h
        · obtain rfl := List.mem_singleton.mp h
          rw [getLast?_append (by decide)]
          decide
        · cases h
      · obtain rfl := List.mem_singleton.mp h
        rw [getLast?_append (by decide)]
        decide
  · cases h

/-- An item that is published without an error, or for want of a value it has to have. -/
def OnlyUnset (t : Store) (bindings : Bindings) (draft : ValueDraft) (e : String × ItemDef) : Prop :=
  if e.2.shared then
    ∃ rk item, item? bindings e.1 e.2.key = some rk ∧ sharedOf t rk = some item ∧ item.ty = e.2.ty
  else ∀ dv, item? draft e.1 e.2.key = some dv → e.2.required = false ∧ validateValue e.2 dv.value = []

omit [SerdeJson] in
theorem endsUnset_of_required {line : String} (h : line ∈ requiredUnset struct) : EndsUnset line := by
  obtain ⟨e, -, hline⟩ := List.mem_flatMap.mp h
  split at hline
  · obtain rfl := List.mem_singleton.mp hline
    exact endsUnset _ _
  · cases hline

/-- Nothing is noted of a shared item that is bound to a published one of its type. -/
theorem sharedErrors_eq_nil {e : String × ItemDef} : sharedErrors t bindings e = [] ↔ (e.2.shared = true →
    ∃ rk item, item? bindings e.1 e.2.key = some rk ∧ sharedOf t rk = some item ∧ item.ty = e.2.ty) := by
  unfold sharedErrors
  by_cases hs : e.2.shared
  · rw [if_pos hs, imp_iff_right hs]
    cases hk : item? bindings e.1 e.2.key with
    | none => simp
    | some rk =>
      dsimp only
      cases hitem : sharedOf t rk with
      | none => simp [hitem]
      | some item => by_cases hty : item.ty = e.2.ty <;> simp [hitem, hty]
  · rw [if_neg hs]
    exact iff_of_true rfl fun h => absurd h hs

theorem ownErrors_of_valid {e : String × ItemDef}
    (h : e.2.shared = false → ∀ dv, item? draft e.1 e.2.key = some dv → validateValue e.2 dv.value = []) :
    ownErrors draft e = if e.2.shared = false ∧ e.2.required = true ∧ item? draft e.1 e.2.key = none
      then [s!"{e.1}/{e.2.key}: required but unset"] else [] := by
  unfold ownErrors
  by_cases hs : e.2.shared
  · simp [hs]
  · have hs : e.2.shared = false := by simpa using hs
    cases hdv : item? draft e.1 e.2.key with
    | none => simp [hs]
    | some dv => simp [hs, h hs dv hdv]

/-- Lines that all tell of an item that is not set are none of shared items, and none of values. -/
theorem valid_of_endsUnset (h : ∀ line ∈ struct.allItems.flatMap (ownErrors draft) ++
      struct.allItems.flatMap (sharedErrors t bindings), EndsUnset line) {e : String × ItemDef} (he : e ∈ struct.allItems) :
    sharedErrors t bindings e = [] ∧
      (e.2.shared = false → ∀ dv, item? draft e.1 e.2.key = some dv → validateValue e.2 dv.value = []) := by
  refine ⟨?_, fun hs dv hdv => ?_⟩
  · rw [List.eq_nil_iff_forall_not_mem]
    intro line hline
    exact not_endsUnset_of_shared hline (h line (List.mem_append_right _ (List.mem_flatMap.mpr ⟨e, he, hline⟩)))
  · rw [List.eq_nil_iff_forall_not_mem]
    intro line hline
    refine not_endsUnset_of_value hline (h line (List.mem_append_left _ (List.mem_flatMap.mpr ⟨e, he, ?_⟩)))
    unfold ownErrors
    simpa [hs, hdv] using hline

/-- The errors are those of items that are not set just if no required item is set and nothing else is wrong. -/
theorem errors_unset_iff (t : Store) (struct : Structure) (bindings : Bindings) (draft : ValueDraft) :
    struct.allItems.flatMap (ownErrors draft) ++ struct.allItems.flatMap (sharedErrors t bindings) = requiredUnset struct ↔
      ∀ e ∈ struct.allItems, OnlyUnset t bindings draft e := by
  constructor
  · intro h
    have hends : ∀ line ∈ struct.allItems.flatMap (ownErrors draft) ++ struct.allItems.flatMap (sharedErrors t bindings),
        EndsUnset line := fun line hline => endsUnset_of_required (h ▸ hline)
    have hnone : struct.allItems.flatMap (sharedErrors t bindings) = [] :=
      List.flatMap_eq_nil_iff.mpr fun e he => (valid_of_endsUnset hends he).1
    rw [hnone, List.append_nil, requiredUnset] at h
    have hown := fun e he => ownErrors_of_valid (valid_of_endsUnset hends (e := e) he).2
    -- no required item is set, or it would be missing among the lines
    have hlen := length_flatMap_eq (fun e he => ?_) (congrArg List.length h)
    · intro e he
      obtain ⟨hshared, hvalue⟩ := valid_of_endsUnset hends he
      unfold OnlyUnset
      by_cases hs : e.2.shared
      · rw [if_pos hs]
        exact sharedErrors_eq_nil.mp hshared hs
      · rw [if_neg hs]
        have hs : e.2.shared = false := by simpa using hs
        intro dv hdv
        have hl := hlen e he
        rw [hown e he, if_neg (by simp [hdv])] at hl
        by_cases hreq : e.2.required
        · simp [hs, hreq] at hl
        · exact ⟨by simpa using hreq, hvalue hs dv hdv⟩
    · rw [hown e he]
      split
      · rename_i hunset
        rw [if_pos ⟨hunset.1, hunset.2.1⟩]
      · exact Nat.zero_le _
  · intro h
    have hshared : ∀ e ∈ struct.allItems, sharedErrors t bindings e = [] := by
      intro e he
      have hone := h e he
      unfold OnlyUnset at hone
      exact sharedErrors_eq_nil.mpr fun hs => by rwa [if_pos hs] at hone
    have hown : ∀ e ∈ struct.allItems, ownErrors draft e =
        if e.2.shared = false ∧ e.2.required = true then [s!"{e.1}/{e.2.key}: required but unset"] else [] := by
      intro e he
      have hone := h e he
      unfold OnlyUnset at hone
      rw [ownErrors_of_valid fun hs dv hdv => by rw [if_neg (by simp [hs])] at hone; exact (hone dv hdv).2]
      by_cases hreq : e.2.shared = false ∧ e.2.required = true
      · rw [if_neg (by simp [hreq.1])] at hone
        rw [if_pos hreq, if_pos]
        refine ⟨hreq.1, hreq.2, Option.eq_none_iff_forall_ne_some.mpr fun dv hdv => ?_⟩
        rw [(hone dv hdv).1] at hreq
        cases hreq.2
      · rw [if_neg hreq, if_neg fun hunset => hreq ⟨hunset.1, hunset.2.1⟩]
    rw [List.flatMap_eq_nil_iff.mpr hshared, List.append_nil, requiredUnset, List.flatMap_congr hown]

/-- The rows that the service reads again are as the command left them. -/
def Undisturbed (t later : Store) (id : ProjectId) (b : BranchName) : Prop :=
  later[branchStateKey id b]? = t[branchStateKey id b]? ∧ later[structKey id]? = t[structKey id]?

theorem getBranchState_congr (h : later[branchStateKey id b]? = t[branchStateKey id b]?) :
    (getBranchState id b).eval later = (getBranchState id b).eval t := by
  rw [getBranchState, loadMerged, readAs_eval, readAs_eval, h]

theorem getStructure_congr (h : later[structKey id]? = t[structKey id]?) :
    (getStructure id).eval later = (getStructure id).eval t := by
  rw [getStructure, loadMerged, readAs_eval, readAs_eval, h]

theorem writeCommand_ok {cmd : Command} {now : Int} (h : (apply cmd now t).result = .ok events) :
    writeCommand cmd now t =
      (.ok { version := ((events.head?).map (·.version)).getD 0, events }, (apply cmd now t).store) := by
  unfold writeCommand
  dsimp only
  rw [h]
  rfl

/-- A publication that warns tells of the required items of the structure, all as not set, whatever it published; these
are its errors just if it set none of them and had no other error. -/
theorem publish_warnings {c r o : String} {ts now : Int} (h : Reachable t)
    (hok : (apply (.publish id b c r o ts .warn) now t).result = .ok events) (hne : events ≠ []) :
    ∃ st struct old new errs, stateOf t id b = some st ∧ structOf t id = some struct ∧ activeContents t id b st = some old ∧
      (materializeResolved st struct old .warn).eval t = .ok (new, errs) ∧
      (∀ later later', Undisturbed (apply (.publish id b c r o ts .warn) now t).store later' id b →
        publishService .warn id b c r o ts now t later later' =
          (.ok { version := st.activeVersion + 1, changes := computeDiff old new, warnings := requiredUnset struct },
            (apply (.publish id b c r o ts .warn) now t).store)) ∧
      (requiredUnset struct = errs ↔
        ∀ e ∈ struct.allItems, OnlyUnset t st.sharedBindings (keepSecrets struct old st.valueDraft) e) := by
  have ht := wellPlaced_of_reach h
  have ht' : WellPlaced (apply (.publish id b c r o ts .warn) now t).store := wellPlaced_of_reach (.step _ _ h trivial)
  obtain ⟨s, hs, hstore, -⟩ := apply_ok hok
  rcases applyPublish_moves ht ts hs with ⟨-, -, -, hnil, -⟩ | hmoves
  · exact absurd hnil hne
  · have hframe := hmoves.frame
    have hn := hmoves.named
    obtain ⟨ws, hmove, -⟩ := hmoves.move
    generalize hbr' : branchAt s.kv id b = br' at hmove
    cases hmove with
    | create hst hfresh => exact absurd rfl hne
    | edit hat hst hedit =>
      cases hedit
    | @release st st' old new gray event record hst ho hrel =>
      cases hrel with
      | @publish _ _ _ _ _ struct _ errs hat hr hp hstruct hm =>
        refine ⟨st, struct, old, new, errs, hst, hstruct, ho, hm, ?_, ?_⟩
        · intro later later' hlater
          have hst' : stateOf s.kv id b = some
              { st with activeVersion := st.activeVersion + 1, lastRequestId := some r, valueDraft := ∅,
                        bindingsDirty := false } := by
            rw [← state_branchAt, hbr', Branch.state_become, rereadState, rereadDraft_empty]
          have hstruct' : structOf s.kv id = some struct := by
            rw [structOf, entity_congr (hframe _ (not_under_structKey hn.plain.1))]
            exact hstruct
          rw [hstore] at hlater ht' ⊢
          have hwarn : publishWarnings id b .warn later' = .ok (requiredUnset struct) := by
            unfold publishWarnings
            rw [if_pos rfl, getBranchState_congr hlater.1, getStructure_congr hlater.2,
              getBranchState_eval ht' hn.plain.1 hn.plain.2, hst', getStructure_eval ht' hn.plain.1, hstruct',
              ← validatePublish_empty]
            rfl
          unfold publishService
          rw [writeCommand_ok hok, hstore]
          dsimp only
          rw [hwarn]
          unfold publishedVersion
          rfl
        · rw [materialize_errors ht hm, eq_comm]
          exact errors_unset_iff t struct st.sharedBindings _

end

section
attribute [local instance] sampleJson

def requiredLog : List (Command × Int) := [
  (.projectCreate "p" "" 0 none, 1),
  (.structureDraftSet "p" 1 [{ name := "g", items := [{ key := "k", ty := .string, required := true }] }] "", 2),
  (.publishStructure "p" "" "r0" "" 0 .warn, 3),
  (.draftUpdate "p" "dev" [⟨"g", "k", .string "v"⟩] [] [] "" 0 none, 4)]

/-- The publication that sets the item tells that it is not set. -/
theorem publish_warnings_sample : ∃ out t', publishService .warn "p" "dev" "" "r1" "" 0 5 (runLog requiredLog)
      (runFrom (runLog requiredLog) [(.publish "p" "dev" "" "r1" "" 0 .warn, 5)])
      (runFrom (runLog requiredLog) [(.publish "p" "dev" "" "r1" "" 0 .warn, 5)]) = (.ok out, t') ∧
    out.warnings = ["g/k: required but unset"] := by
  have hresult : (apply (.publish "p" "dev" "" "r1" "" 0 .warn) 5 (runLog requiredLog)).result.toOption.map (·.length) =
      some 1 := by decide +kernel
  have hunset : (structOf (runLog requiredLog) "p").map requiredUnset = some ["g/k: required but unset"] := by decide +kernel
  cases hr : (apply (.publish "p" "dev" "" "r1" "" 0 .warn) 5 (runLog requiredLog)).result with
  | error e =>
    rw [hr] at hresult
    cases hresult
  | ok events =>
    rw [hr] at hresult
    have hne : events ≠ [] := by
      intro hnil
      rw [hnil] at hresult
      cases hresult
    obtain ⟨st, struct, old, new, errs, -, hstruct, -, -, hservice, -⟩ := publish_warnings (reachable_runLog requiredLog) hr hne
    rw [hstruct] at hunset
    exact ⟨_, _, hservice _ _ ⟨rfl, rfl⟩, Option.some.inj hunset⟩

end

end Defing
