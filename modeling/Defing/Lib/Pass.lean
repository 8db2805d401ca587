import Defing.Lib.Prog

/-!
# Passes that rewrite in place

A pass goes over a value, rewrites what needs it, and says whether it did.
`Rewrites` is its contract, with one rule for each shape it goes over: the
entries of a list or of a map, and what a map of maps holds.
-/

namespace KV

open Std (ExtTreeMap TransOrd LawfulEqOrd)

variable {E K α β : Type}

/-! ## Shapes -/

def passList (pass : β → Except E (β × Bool)) : List β → Except E (List β × Bool)
  | [] => pure ([], false)
  | b :: l => do
    let (b', changed) ← pass b
    let (l', rest) ← passList pass l
    pure (b' :: l', changed || rest)

def passEntry [Ord K] [TransOrd K] (pass : β → Except E (β × Bool)) (acc : ExtTreeMap K β × Bool) (e : K × β) :
    Except E (ExtTreeMap K β × Bool) := do
  let (b, changed) ← pass e.2
  pure (acc.1.insert e.1 b, acc.2 || changed)

def passMap [Ord K] [TransOrd K] (pass : β → Except E (β × Bool)) (m : ExtTreeMap K β) : Except E (ExtTreeMap K β × Bool) :=
  m.toList.foldlM (passEntry pass) (m, false)

/-! ## Rules -/

/-- The pass applies `g`, which leaves alone what needs nothing, and reports whether anything did. -/
structure Rewrites (pass : β → Except E (β × Bool)) (needs : β → Prop) (g : β → β) : Prop where
  run : ∀ b, ∃ changed, pass b = .ok (g b, changed) ∧ (changed = true ↔ needs b)
  keeps : ∀ b, ¬ needs b → g b = b

section
variable {pass : β → Except E (β × Bool)} {needs : β → Prop} {g : β → β}

theorem Rewrites.congr {needs' : β → Prop} (h : Rewrites pass needs g) (hneeds : ∀ b, needs b ↔ needs' b) :
    Rewrites pass needs' g where
  run b := by
    obtain ⟨c, hb, hc⟩ := h.run b
    exact ⟨c, hb, hc.trans (hneeds b)⟩
  keeps b hn := h.keeps b fun hneed => hn ((hneeds b).mp hneed)

theorem Rewrites.list (h : Rewrites pass needs g) : Rewrites (passList pass) (fun l => ∃ b ∈ l, needs b) (List.map g) where
  run l := by
    induction l with
    | nil => exact ⟨false, rfl, by simp⟩
    | cons b l ih =>
      obtain ⟨c, hb, hc⟩ := h.run b
      obtain ⟨c', hl, hc'⟩ := ih
      refine ⟨c || c', ?_, ?_⟩
      · simp only [passList, hb, hl]
        rfl
      · rw [Bool.or_eq_true, hc, hc']
        simp
  keeps l hn := by
    refine (List.map_congr_left fun b hb => ?_).trans (List.map_id l)
    exact h.keeps b fun hneeds => hn ⟨b, hb, hneeds⟩

theorem Rewrites.part (h : Rewrites pass needs g) (get : α → β) (set : α → β → α) (hid : ∀ a, set a (get a) = a) :
    Rewrites (fun a => (pass (get a)).map fun r => (set a r.1, r.2)) (fun a => needs (get a)) fun a => set a (g (get a)) where
  run a := by
    obtain ⟨c, hb, hc⟩ := h.run (get a)
    exact ⟨c, by rw [hb]; rfl, hc⟩
  keeps a hn := by rw [h.keeps _ hn, hid]

variable [Ord K] [TransOrd K] [LawfulEqOrd K] [DecidableEq K]

theorem getElem?_foldl_insert (g : K → β → β) (l : List (K × β)) (m : ExtTreeMap K β) (hl : ∀ e ∈ l, m[e.1]? = some e.2)
    (hd : (l.map (·.1)).Nodup) (k : K) :
    (l.foldl (fun m e => m.insert e.1 (g e.1 e.2)) m)[k]? = if k ∈ l.map (·.1) then m[k]?.map (g k) else m[k]? := by
  induction l generalizing m with
  | nil => simp
  | cons e l ih =>
    rw [List.map_cons, List.nodup_cons] at hd
    have hstay : ∀ e' ∈ l, (m.insert e.1 (g e.1 e.2))[e'.1]? = some e'.2 := by
      intro e' he'
      have hne : e.1 ≠ e'.1 := fun h => hd.1 (List.mem_map.mpr ⟨e', he', h.symm⟩)
      rw [getElem?_insert_ne m hne]
      exact hl e' (List.mem_cons_of_mem _ he')
    rw [List.foldl_cons, ih _ hstay hd.2, getElem?_insert, List.map_cons]
    by_cases hk : e.1 = k
    · subst hk
      rw [if_neg hd.1, if_pos rfl, if_pos List.mem_cons_self, hl e List.mem_cons_self]
      rfl
    · rw [if_neg hk]
      by_cases hm : k ∈ l.map (·.1)
      · rw [if_pos hm, if_pos (List.mem_cons_of_mem _ hm)]
      · rw [if_neg hm, if_neg fun h => (List.mem_cons.mp h).elim (fun e => hk e.symm) hm]

omit [LawfulEqOrd K] [DecidableEq K] in
theorem nodup_toList (m : ExtTreeMap K β) : (m.toList.map (·.1)).Nodup := by
  rw [ExtTreeMap.map_fst_toList_eq_keys]
  exact ExtTreeMap.nodup_keys

theorem foldl_insert_toList (g : K → β → β) (m : ExtTreeMap K β) :
    m.toList.foldl (fun m e => m.insert e.1 (g e.1 e.2)) m = m.map g := by
  refine ExtTreeMap.ext_getElem? fun k => ?_
  rw [getElem?_foldl_insert g _ _ (fun e he => ExtTreeMap.mem_toList_iff_getElem?_eq_some.mp he) (nodup_toList m) k,
    ExtTreeMap.getElem?_map]
  by_cases hk : k ∈ m.toList.map (·.1)
  · rw [if_pos hk]
  · rw [if_neg hk]
    have hnone : m[k]? = none := by
      refine Option.eq_none_iff_forall_ne_some.mpr fun v hv => hk (List.mem_map.mpr ⟨(k, v), ?_, rfl⟩)
      exact ExtTreeMap.mem_toList_iff_getElem?_eq_some.mpr hv
    rw [hnone]
    rfl

omit [LawfulEqOrd K] [DecidableEq K] in
theorem foldlM_passEntry (h : Rewrites pass needs g) (l : List (K × β)) (m : ExtTreeMap K β) (c : Bool) :
    ∃ changed, l.foldlM (passEntry pass) (m, c) = .ok (l.foldl (fun m e => m.insert e.1 (g e.2)) m, changed) ∧
      (changed = true ↔ c = true ∨ ∃ e ∈ l, needs e.2) := by
  induction l generalizing m c with
  | nil => exact ⟨c, rfl, by simp⟩
  | cons e l ih =>
    obtain ⟨c₁, he, hc₁⟩ := h.run e.2
    obtain ⟨changed, hl, hchanged⟩ := ih (m.insert e.1 (g e.2)) (c || c₁)
    refine ⟨changed, ?_, ?_⟩
    · rw [List.foldlM_cons, passEntry, he]
      exact hl
    · rw [hchanged, Bool.or_eq_true, hc₁, or_assoc]
      simp

theorem Rewrites.map (h : Rewrites pass needs g) :
    Rewrites (passMap pass) (fun m : ExtTreeMap K β => ∃ (k : K) (b : β), m[k]? = some b ∧ needs b) (fun m => m.map fun _ => g) where
  run m := by
    obtain ⟨changed, hrun, hchanged⟩ := foldlM_passEntry h m.toList m false
    refine ⟨changed, ?_, hchanged.trans ?_⟩
    · rw [passMap, hrun, foldl_insert_toList fun _ => g]
    · simp only [Bool.false_eq_true, false_or, Prod.exists, ExtTreeMap.mem_toList_iff_getElem?_eq_some]
  keeps m hn := by
    refine ExtTreeMap.ext_getElem? fun k => ?_
    rw [ExtTreeMap.getElem?_map]
    cases hm : m[k]? with
    | none => rfl
    | some b => exact congrArg some (h.keeps b fun hneeds => hn ⟨k, b, hm, hneeds⟩)

end

/-! ## Passes that fail -/

section
variable {pass pass' : β → Except E (β × Bool)}

theorem foldlM_congr {γ : Type} {f g : γ → α → Except E γ} {l : List α} (h : ∀ c, ∀ a ∈ l, f c a = g c a) (c : γ) :
    l.foldlM f c = l.foldlM g c := by
  induction l generalizing c with
  | nil => rfl
  | cons a l ih =>
    rw [List.foldlM_cons, List.foldlM_cons, h c a List.mem_cons_self]
    exact bind_congr fun c => ih (fun c a ha => h c a (List.mem_cons_of_mem _ ha)) c

theorem foldlM_error {γ : Type} {f : γ → α → Except E γ} {l : List α} (h : ∃ a ∈ l, ∀ c, ∃ e, f c a = .error e) (c : γ) :
    ∃ e, l.foldlM f c = .error e := by
  induction l generalizing c with
  | nil =>
    obtain ⟨_, ha, _⟩ := h
    cases ha
  | cons a l ih =>
    rw [List.foldlM_cons]
    cases hfa : f c a with
    | error e => exact ⟨e, rfl⟩
    | ok c' =>
      refine ih ?_ c'
      obtain ⟨b, hb, hbad⟩ := h
      rcases List.mem_cons.mp hb with rfl | hb
      · obtain ⟨e, he⟩ := hbad c
        rw [hfa] at he
        cases he
      · exact ⟨b, hb, hbad⟩

theorem passList_congr {l : List β} (h : ∀ b ∈ l, pass b = pass' b) : passList pass l = passList pass' l := by
  induction l with
  | nil => rfl
  | cons b l ih =>
    rw [passList, passList, h b List.mem_cons_self, ih fun b hb => h b (List.mem_cons_of_mem _ hb)]

theorem passList_error {l : List β} (h : ∃ b ∈ l, ∃ e, pass b = .error e) : ∃ e, passList pass l = .error e := by
  induction l with
  | nil =>
    obtain ⟨_, hb, _⟩ := h
    cases hb
  | cons b l ih =>
    rw [passList]
    cases hp : pass b with
    | error e => exact ⟨e, rfl⟩
    | ok r =>
      obtain ⟨b', hb', e, he⟩ := h
      rcases List.mem_cons.mp hb' with rfl | hb'
      · rw [hp] at he
        cases he
      · obtain ⟨e', he'⟩ := ih ⟨b', hb', e, he⟩
        rw [he']
        exact ⟨e', rfl⟩

variable [Ord K] [TransOrd K] [LawfulEqOrd K] {m : ExtTreeMap K β}

theorem passMap_congr (h : ∀ (k : K) b, m[k]? = some b → pass b = pass' b) : passMap pass m = passMap pass' m := by
  refine foldlM_congr ?_ _
  intro acc e he
  rw [passEntry, passEntry, h e.1 e.2 (ExtTreeMap.mem_toList_iff_getElem?_eq_some.mp he)]

theorem passMap_error (h : ∃ (k : K) (b : β), m[k]? = some b ∧ ∃ e, pass b = .error e) : ∃ e, passMap pass m = .error e := by
  obtain ⟨k, b, hb, e, he⟩ := h
  refine foldlM_error ⟨(k, b), ExtTreeMap.mem_toList_iff_getElem?_eq_some.mpr hb, ?_⟩ _
  intro acc
  exact ⟨e, by rw [passEntry, he]; rfl⟩

end

end KV
