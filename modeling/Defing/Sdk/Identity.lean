import Defing.Api.DataPlane

/-!
# The identity of a client on both channels

Over gRPC a client sends its labels as they are. Over HTTP it flattens them
into one header, which the server takes apart again, and trims.
-/

namespace Defing

open Std (ExtTreeMap)

/-! ## What the clients send -/

/-- `encodeLabels`: sorted by key. The clients in Python and TypeScript join the same way. -/
def encodeLabels (labels : StrMap String) : String := ",".intercalate (labels.toList.map fun l => l.1 ++ "=" ++ l.2)

def identityHeaders (instanceId : String) (labels : StrMap String) (req : Request) : Request :=
  { req with
    instanceId := if instanceId ≠ "" then some instanceId else none
    labels := if labels.size > 0 then some (encodeLabels labels) else none }

/-- What `get_config` of the gRPC service makes of a request. -/
def getConfigCtx (instanceId : String) (labels : StrMap String) (peer : Option IpAddr) : ClientCtx :=
  { instanceId, labels, ip := peer }

/-! ## Trimmed texts -/

section Trim

variable {α : Type} {p : α → Bool} {l : List α}

def Trimmed (p : α → Bool) (l : List α) : Prop := (∀ hl : l ≠ [], ¬ p (l.head hl)) ∧ ∀ hl : l ≠ [], ¬ p (l.getLast hl)

theorem trimmed_iff : (l.dropWhile p).rdropWhile p = l ↔ Trimmed p l := by
  constructor
  · intro h
    have hlen := (List.rdropWhile_prefix p (l.dropWhile p)).length_le
    rw [h] at hlen
    have hd : l.dropWhile p = l := (List.dropWhile_sublist p).eq_of_length_le hlen
    rw [hd] at h
    refine ⟨fun hl => ?_, List.rdropWhile_eq_self_iff.mp h⟩
    have := List.dropWhile_eq_self_iff.mp hd (List.length_pos_iff.mpr hl)
    rwa [← List.head_eq_getElem] at this
  · intro h
    have hd : l.dropWhile p = l := by
      refine List.dropWhile_eq_self_iff.mpr fun hl => ?_
      have := h.1 (List.length_pos_iff.mp hl)
      rwa [List.head_eq_getElem] at this
    rw [hd]
    exact List.rdropWhile_eq_self_iff.mpr h.2

theorem trimmed_trim : Trimmed p ((l.dropWhile p).rdropWhile p) := by
  refine ⟨fun hl => ?_, fun hl => List.rdropWhile_last_not _ _ hl⟩
  have hpre := List.rdropWhile_prefix p (l.dropWhile p)
  have hne : l.dropWhile p ≠ [] := fun h => hl (by simp [h])
  rw [hpre.head hl]
  exact Bool.eq_false_iff.mp (List.head_dropWhile_not p hne)

theorem Trimmed.append {a b : List α} (ha : Trimmed p a) (hb : Trimmed p b) : Trimmed p (a ++ b) := by
  by_cases ha₀ : a = []
  · simpa [ha₀] using hb
  · by_cases hb₀ : b = []
    · simpa [hb₀] using ha
    · refine ⟨fun hl => ?_, fun hl => ?_⟩
      · rw [List.head_append_of_ne_nil ha₀]; exact ha.1 ha₀
      · rw [List.getLast_append_of_ne_nil _ hb₀]; exact hb.2 hb₀

end Trim

theorem trim_iff {s : String} : trim s = s ↔ Trimmed isWhitespace s.toList := by
  rw [← trimmed_iff, ← String.toList_inj, trim, String.toList_ofList]

theorem trim_trim (s : String) : trim (trim s) = trim s := by
  rw [trim_iff, trim, String.toList_ofList]
  exact trimmed_trim

theorem mem_trim {s : String} {c : Char} (h : c ∈ (trim s).toList) : c ∈ s.toList := by
  rw [trim, String.toList_ofList] at h
  exact List.dropWhile_subset _ ((List.rdropWhile_prefix _ _).subset h)

/-! ## Visible texts -/

section Visible

variable {s s' : String}

theorem Visible.subset (h : Visible s) (hs : s'.toList ⊆ s.toList) : Visible s' := fun c hc => h c (hs hc)

theorem Visible.trim (h : Visible s) : Visible (trim s) := h.subset fun _ hc => mem_trim hc

theorem Visible.append (h : Visible s) (h' : Visible s') : Visible (s ++ s') := by
  intro c hc
  rw [String.toList_append, List.mem_append] at hc
  exact hc.elim (h c) (h' c)

theorem Visible.intercalate {sep : String} (hsep : Visible sep) {parts : List String} (h : ∀ part ∈ parts, Visible part) :
    Visible (sep.intercalate parts) := by
  induction parts with
  | nil => simp [Visible]
  | cons part parts ih =>
    cases parts with
    | nil => simpa using h part
    | cons next parts =>
      rw [String.intercalate_cons_cons]
      exact ((h part (by simp)).append hsep).append (ih fun q hq => h q (List.mem_cons_of_mem _ hq))

end Visible

/-! ## Labels that come through -/

structure PlainLabel (k v : String) : Prop where
  key_ne : k ≠ ""
  key_trim : trim k = k
  key_comma : ',' ∉ k.toList
  key_equals : '=' ∉ k.toList
  key_visible : Visible k
  value_trim : trim v = v
  value_comma : ',' ∉ v.toList
  value_visible : Visible v

def PlainLabels (labels : StrMap String) : Prop := ∀ k v, labels[k]? = some v → PlainLabel k v

def addLabel (labels : StrMap String) (pair : String) : StrMap String :=
  match splitAt '=' pair with
  | k :: v :: vs =>
    let key := trim k
    if key = "" then labels else labels.insert key (trim ("=".intercalate (v :: vs)))
  | _ => labels

theorem parseLabels_eq (raw : String) : parseLabels raw = ((splitAt ',' raw).map trim).foldl addLabel ∅ := rfl

theorem mem_splitOn {α : Type} [DecidableEq α] {c : α} {l part : List α} (h : part ∈ l.splitOn c) :
    c ∉ part ∧ part ⊆ l := by
  induction l generalizing part with
  | nil => simp_all
  | cons x l ih =>
    rw [List.splitOn_cons_eq_if_modifyHead] at h
    by_cases hx : x = c
    · simp only [hx, beq_self_eq_true, if_true, List.mem_cons] at h
      rcases h with rfl | h
      · simp
      · exact ⟨(ih h).1, List.subset_cons_of_subset x (ih h).2⟩
    · simp only [hx, beq_iff_eq, if_false] at h
      cases hs : l.splitOn c with
      | nil => exact absurd hs (List.splitOn_ne_nil c l)
      | cons y ys =>
        simp only [hs, List.modifyHead_cons, List.mem_cons] at h
        rcases h with rfl | h
        · have hy : c ∉ y ∧ y ⊆ l := ih (by simp [hs])
          refine ⟨?_, List.cons_subset_cons x hy.2⟩
          simp [hy.1, Ne.symm hx]
        · have hp : c ∉ part ∧ part ⊆ l := ih (by simp [hs, h])
          exact ⟨hp.1, List.subset_cons_of_subset x hp.2⟩

theorem mem_splitAt {c : Char} {s part : String} (h : part ∈ splitAt c s) :
    c ∉ part.toList ∧ part.toList ⊆ s.toList := by
  obtain ⟨l, hl, rfl⟩ := List.mem_map.mp h
  rw [String.toList_ofList]
  exact mem_splitOn hl

theorem intercalate_splitAt (c : Char) (s : String) : (String.singleton c).intercalate (splitAt c s) = s := by
  rw [← String.toList_inj, String.toList_intercalate, splitAt, List.map_map]
  have : String.toList ∘ String.ofList = id := funext fun l => String.toList_ofList
  rw [this, List.map_id, String.toList_singleton]
  exact List.intercalate_splitOn c

theorem splitAt_append {c : Char} {a b : String} (h : c ∉ a.toList) :
    splitAt c (a ++ String.singleton c ++ b) = a :: splitAt c b := by
  have e : (a ++ String.singleton c ++ b).toList = a.toList ++ c :: b.toList := by simp
  rw [splitAt, e, List.splitOn_append_cons_self_of_not_mem h, List.map_cons, String.ofList_toList]
  rfl

theorem splitAt_intercalate {c : Char} {parts : List String} (hne : parts ≠ []) (h : ∀ part ∈ parts, c ∉ part.toList) :
    splitAt c ((String.singleton c).intercalate parts) = parts := by
  rw [splitAt, String.toList_intercalate, String.toList_singleton, List.splitOn_intercalate c _ (by simp [hne])]
  · rw [List.map_map]
    exact (List.map_congr_left fun _ _ => String.ofList_toList).trans (List.map_id _)
  · intro l hl
    obtain ⟨part, hp, rfl⟩ := List.mem_map.mp hl
    exact h part hp

/-! ## One label -/

theorem addLabel_plain {labels : StrMap String} {k v : String} (h : PlainLabel k v) :
    addLabel labels (k ++ "=" ++ v) = labels.insert k v := by
  have hs : splitAt '=' (k ++ "=" ++ v) = k :: splitAt '=' v := splitAt_append h.key_equals
  have hj : "=".intercalate (splitAt '=' v) = v := intercalate_splitAt '=' v
  unfold addLabel
  rw [hs]
  cases hv : splitAt '=' v with
  | nil => exact absurd (List.map_eq_nil_iff.mp hv) (List.splitOn_ne_nil _ _)
  | cons x xs =>
    rw [hv] at hj
    simp [h.key_trim, h.key_ne, hj, h.value_trim]

theorem PlainLabel.pair {k v : String} (h : PlainLabel k v) : trim (k ++ "=" ++ v) = k ++ "=" ++ v ∧ ',' ∉ (k ++ "=" ++ v).toList := by
  constructor
  · rw [trim_iff]
    have hk := trim_iff.mp h.key_trim
    have hv := trim_iff.mp h.value_trim
    have he : Trimmed isWhitespace [ '='] := by simp [Trimmed]; decide
    simpa using (hk.append he).append hv
  · simp [h.key_comma, h.value_comma]

theorem addLabel_invariant {labels : StrMap String} (h : PlainLabels labels) {pair : String} (hp : ',' ∉ pair.toList)
    (hv : Visible pair) :
    PlainLabels (addLabel labels pair) := by
  unfold addLabel
  cases hs : splitAt '=' pair with
  | nil => exact h
  | cons k rest =>
    cases rest with
    | nil => exact h
    | cons v vs =>
      have hk : '=' ∉ k.toList ∧ k.toList ⊆ pair.toList := mem_splitAt (by simp [hs])
      have hj : "=".intercalate (k :: v :: vs) = pair := hs ▸ intercalate_splitAt '=' pair
      by_cases hne : trim k = ""
      · simpa [hne] using h
      · simp only [hne, if_false]
        intro k' v' hkv
        rw [ExtTreeMap.getElem?_insert] at hkv
        by_cases hc : trim k = k'
        · subst hc
          simp only [Std.ReflCmp.compare_self, if_true, Option.some.injEq] at hkv
          subst hkv
          have hrest : ("=".intercalate (v :: vs)).toList ⊆ pair.toList := by
            rw [← hj, String.intercalate_cons_cons, String.toList_append]
            exact List.subset_append_right _ _
          exact
            { key_ne := hne
              key_trim := trim_trim k
              key_comma := fun hm => hp (hk.2 (mem_trim hm))
              key_equals := fun hm => hk.1 (mem_trim hm)
              key_visible := (hv.subset hk.2).trim
              value_trim := trim_trim _
              value_comma := fun hm => hp (hrest (mem_trim hm))
              value_visible := (hv.subset hrest).trim }
        · rw [if_neg (by simpa using hc)] at hkv
          exact h k' v' hkv

/-! ## The whole header -/

theorem parseLabels_plain {raw : String} (hraw : Visible raw) : PlainLabels (parseLabels raw) := by
  have hfold : ∀ (pairs : List String) (labels : StrMap String), PlainLabels labels →
      (∀ pair ∈ pairs, ',' ∉ pair.toList ∧ Visible pair) → PlainLabels (pairs.foldl addLabel labels) := by
    intro pairs
    induction pairs with
    | nil => intro labels h _; exact h
    | cons pair pairs ih =>
      intro labels h hp
      obtain ⟨hp, hps⟩ := List.forall_mem_cons.mp hp
      exact ih _ (addLabel_invariant h hp.1 hp.2) hps
  rw [parseLabels_eq]
  refine hfold _ ∅ (by simp [PlainLabels]) ?_
  intro pair hpair
  obtain ⟨part, hpart, rfl⟩ := List.mem_map.mp hpair
  obtain ⟨hcomma, hsub⟩ := mem_splitAt hpart
  exact ⟨fun hm => hcomma (mem_trim hm), (hraw.subset hsub).trim⟩

theorem ofList_entries (labels : StrMap String) :
    labels.toList.foldl (fun (acc : StrMap String) l => acc.insert l.1 l.2) ∅ = labels := by
  have hof : (ExtTreeMap.ofList labels.toList : StrMap String) =
      labels.toList.foldl (fun acc l => acc.insert l.1 l.2) ∅ := ExtTreeMap.ofList_eq_foldl
  rw [← hof]
  refine ExtTreeMap.ext_getElem? fun k => ?_
  cases hk : labels[k]? with
  | some v =>
    exact ExtTreeMap.getElem?_ofList_of_mem Std.ReflCmp.compare_self ExtTreeMap.distinct_keys_toList
      (ExtTreeMap.mem_toList_iff_getElem?_eq_some.mpr hk)
  | none =>
    refine ExtTreeMap.getElem?_ofList_of_contains_eq_false ?_
    rw [ExtTreeMap.map_fst_toList_eq_keys, List.contains_eq_mem, decide_eq_false_iff_not, ExtTreeMap.mem_keys]
    rw [ExtTreeMap.mem_iff_isSome_getElem?, hk]
    simp

theorem parseLabels_encodeLabels {labels : StrMap String} (hne : labels.size > 0) (h : PlainLabels labels) :
    parseLabels (encodeLabels labels) = labels := by
  have hplain : ∀ l ∈ labels.toList, PlainLabel l.1 l.2 := fun l hl =>
    h l.1 l.2 (ExtTreeMap.mem_toList_iff_getElem?_eq_some.mp hl)
  have hparts : (labels.toList.map fun l => l.1 ++ "=" ++ l.2) ≠ [] := by
    intro hnil
    have hlen : labels.toList.length = labels.size := ExtTreeMap.length_toList
    simp [List.map_eq_nil_iff.mp hnil] at hlen
    omega
  have hsplit : splitAt ',' (encodeLabels labels) = labels.toList.map fun l => l.1 ++ "=" ++ l.2 := by
    refine splitAt_intercalate hparts fun part hpart => ?_
    obtain ⟨l, hl, rfl⟩ := List.mem_map.mp hpart
    exact (hplain l hl).pair.2
  have hfold : ∀ (ls : List (String × String)) (acc : StrMap String), (∀ l ∈ ls, PlainLabel l.1 l.2) →
      ((ls.map fun l => l.1 ++ "=" ++ l.2).map trim).foldl addLabel acc =
        ls.foldl (fun acc l => acc.insert l.1 l.2) acc := by
    intro ls
    induction ls with
    | nil => intro acc _; rfl
    | cons l ls ih =>
      intro acc hls
      obtain ⟨hl, hls⟩ := List.forall_mem_cons.mp hls
      simp only [List.map_cons, List.foldl_cons, hl.pair.1, addLabel_plain hl]
      exact ih _ hls
  rw [parseLabels_eq, hsplit, hfold _ _ hplain]
  exact ofList_entries labels

theorem encodeLabels_visible {labels : StrMap String} (h : PlainLabels labels) : Visible (encodeLabels labels) := by
  refine Visible.intercalate (by decide) fun part hpart => ?_
  obtain ⟨l, hl, rfl⟩ := List.mem_map.mp hpart
  have hplain := h l.1 l.2 (ExtTreeMap.mem_toList_iff_getElem?_eq_some.mp hl)
  exact (hplain.key_visible.append (by decide)).append hplain.value_visible

/-! ## Both channels -/

theorem ruleMatches_label (key value : String) (ctx : ClientCtx) :
    ruleMatches { matchLabels := [⟨key, value⟩] } ctx = decide (ctx.labels[key]? = some value) := by
  unfold ruleMatches
  cases ctx.ip <;> simp

theorem headerText_of_visible {s : String} (h : Visible s) : headerText (some s) = some s := by
  simp [headerText, h]

theorem headerText_of_not_visible {s : String} (h : ¬ Visible s) : headerText (some s) = none := by
  simp [headerText, h]

/-- The labels come through the header as they are exactly if they are plain. -/
theorem identityHeaders_labels (instanceId : String) (labels : StrMap String) (req : Request) :
    (clientCtxFromHeaders (identityHeaders instanceId labels req)).labels = labels ↔ PlainLabels labels := by
  unfold clientCtxFromHeaders identityHeaders
  by_cases hne : labels.size > 0
  · simp only [hne, if_true]
    by_cases hvisible : Visible (encodeLabels labels)
    · rw [headerText_of_visible hvisible, Option.map_some, Option.getD_some]
      exact ⟨fun h => h ▸ parseLabels_plain hvisible, parseLabels_encodeLabels hne⟩
    · rw [headerText_of_not_visible hvisible, Option.map_none, Option.getD_none]
      refine ⟨fun h => ?_, fun h => absurd (encodeLabels_visible h) hvisible⟩
      simp [← h] at hne
  · have he : labels = ∅ := by
      rw [ExtTreeMap.eq_empty_iff_size_eq_zero]
      omega
    subst he
    simp [PlainLabels, headerText]

theorem identityHeaders_instanceId (instanceId : String) (labels : StrMap String) (req : Request) :
    (clientCtxFromHeaders (identityHeaders instanceId labels req)).instanceId = instanceId ↔
      trim instanceId = instanceId ∧ Visible instanceId := by
  unfold clientCtxFromHeaders identityHeaders
  by_cases hne : instanceId = ""
  · subst hne
    simp [headerText, Visible, trim]
  · by_cases hvisible : Visible instanceId
    · simp [hne, headerText_of_visible hvisible, hvisible]
    · simp [hne, headerText_of_not_visible hvisible, hvisible, trim, Ne.symm hne]

/-- The header and the message make the same client exactly of an identity that is visible, without blanks around it,
and of plain labels. Then both are sent to the same version; and of other labels some selector of a rule tells the
channels apart. -/
theorem identity_agrees [SerdeJson] (instanceId : String) (labels : StrMap String) (req : Request) :
    (clientCtxFromHeaders (identityHeaders instanceId labels req) = getConfigCtx instanceId labels req.peer ↔
        (trim instanceId = instanceId ∧ Visible instanceId) ∧ PlainLabels labels) ∧
      (trim instanceId = instanceId → Visible instanceId → PlainLabels labels → ∀ id branch (t : Store),
        (resolveVersion id branch (clientCtxFromHeaders (identityHeaders instanceId labels req))).eval t =
          (resolveVersion id branch (getConfigCtx instanceId labels req.peer)).eval t) ∧
      ((∀ key value, ruleMatches { matchLabels := [⟨key, value⟩] }
            (clientCtxFromHeaders (identityHeaders instanceId labels req)) =
          ruleMatches { matchLabels := [⟨key, value⟩] } (getConfigCtx instanceId labels req.peer)) ↔
        PlainLabels labels) := by
  have hlabels := identityHeaders_labels instanceId labels req
  have hctx : clientCtxFromHeaders (identityHeaders instanceId labels req) = getConfigCtx instanceId labels req.peer ↔
      (trim instanceId = instanceId ∧ Visible instanceId) ∧ PlainLabels labels := by
    rw [ClientCtx.mk.injEq, ← hlabels, ← identityHeaders_instanceId instanceId labels req]
    simp [getConfigCtx, clientCtxFromHeaders, identityHeaders]
  refine ⟨hctx, ?_, ?_⟩
  · intro hi hv hl id branch t
    rw [hctx.mpr ⟨⟨hi, hv⟩, hl⟩]
  · rw [← hlabels]
    constructor
    · intro h
      refine ExtTreeMap.ext_getElem? fun k => Option.ext fun v => ?_
      simpa only [ruleMatches_label, getConfigCtx, decide_eq_decide] using h k v
    · intro h key value
      rw [ruleMatches_label, ruleMatches_label, h]
      rfl

end Defing
