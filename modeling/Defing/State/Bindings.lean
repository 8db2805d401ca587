import Defing.State.Usage

/-!
# Bindings to shared items

What the bindings of a branch are after a draft update and after a publication
of a structure, item by item.
-/

namespace Defing

open KV (Prog Plain)

variable [SerdeJson] {id : ProjectId} {t : Store} {g k rk : String}

def structOf (t : Store) (id : ProjectId) : Option Structure := entity Structure t (structKey id)

def sharedOf (t : Store) (key : String) : Option SharedItem := entity SharedItem t (sharedKey key)

theorem reads_sharedKey (ht : WellPlaced t) (key : String) : Decodes t[sharedKey key]? (sharedOf t key) :=
  decodes_entity fun _ h => placed_at_sharedKey (ht _ _ h)

/-- A binding survives a structure: the item is shared there, and what it is bound to of its type. -/
def Fits (t : Store) (struct : Structure) (g k rk : String) : Prop :=
  ∃ ty item, item? (sharedItems struct) g k = some ty ∧ sharedOf t rk = some item ∧ item.ty = ty

/-! ## Folds over maps -/

section
variable {α β : Type} {f : String → α → Option β} {step : StrMap β → String × α → StrMap β}

omit [SerdeJson] in
theorem getElem?_foldl_of_notMem
    (hs : ∀ m e k, (step m e)[k]? = if e.1 = k then (f e.1 e.2).or m[k]? else m[k]?) (l : List (String × α))
    (m : StrMap β) (hk : ∀ v, (k, v) ∉ l) : (l.foldl step m)[k]? = m[k]? := by
  induction l generalizing m with
  | nil => rfl
  | cons e l ih =>
    rw [List.foldl_cons, ih _ fun v hv => hk v (List.mem_cons_of_mem _ hv), hs, if_neg]
    rintro rfl
    exact hk e.2 List.mem_cons_self

omit [SerdeJson] in
theorem getElem?_foldl_of_mem
    (hs : ∀ m e k, (step m e)[k]? = if e.1 = k then (f e.1 e.2).or m[k]? else m[k]?) {l : List (String × α)}
    (hd : (l.map (·.1)).Nodup) (m : StrMap β) {v : α} (hk : (k, v) ∈ l) :
    (l.foldl step m)[k]? = (f k v).or m[k]? := by
  induction l generalizing m with
  | nil => cases hk
  | cons e l ih =>
    rw [List.map_cons, List.nodup_cons] at hd
    rw [List.foldl_cons]
    rcases List.mem_cons.mp hk with rfl | hk
    · rw [getElem?_foldl_of_notMem hs l _ fun v hv => hd.1 (List.mem_map.mpr ⟨_, hv, rfl⟩), hs, if_pos rfl]
    · rw [ih hd.2 _ hk, hs, if_neg]
      rintro rfl
      exact hd.1 (List.mem_map.mpr ⟨_, hk, rfl⟩)

omit [SerdeJson] in
theorem getElem?_foldl_toList
    (hs : ∀ m e k, (step m e)[k]? = if e.1 = k then (f e.1 e.2).or m[k]? else m[k]?) (m : StrMap α) (k : String) :
    (m.toList.foldl step ∅)[k]? = (m[k]?).bind (f k) := by
  cases h : m[k]? with
  | none =>
    rw [getElem?_foldl_of_notMem hs, Std.ExtTreeMap.getElem?_empty]
    · rfl
    · intro v hv
      rw [Std.ExtTreeMap.mem_toList_iff_getElem?_eq_some, h] at hv
      cases hv
  | some v =>
    have hd : (m.toList.map (·.1)).Nodup := by
      rw [Std.ExtTreeMap.map_fst_toList_eq_keys]
      exact Std.ExtTreeMap.nodup_keys
    rw [getElem?_foldl_of_mem hs hd _ (Std.ExtTreeMap.mem_toList_iff_getElem?_eq_some.mpr h),
      Std.ExtTreeMap.getElem?_empty, Option.or_none]
    rfl

end

omit [SerdeJson] in
theorem foldlM_eval {α β : Type} {f : β → α → M β} {g : β → α → β} (hf : ∀ b a, (f b a).ReadOnly)
    (h : ∀ b a, (f b a).eval t = .ok (g b a)) (l : List α) (b : β) :
    (l.foldlM f b).eval t = .ok (l.foldl g b) := by
  induction l generalizing b with
  | nil => rfl
  | cons a l ih =>
    rw [List.foldlM_cons, (hf b a).eval_bind_ok (h b a), List.foldl_cons]
    exact ih _

/-! ## Bindings under a new structure -/

section

theorem tryGetShared_eval (ht : WellPlaced t) (rk : String) : (tryGetShared rk).eval t = .ok (sharedOf t rk) := by
  have h : parseRow s!"value at {sharedKey rk}" t[sharedKey rk]? = .ok (sharedOf t rk) :=
    parseRow_ok.mpr (reads_sharedKey ht rk)
  change (Except.ok _ : Except Error (Option SharedItem)) = _
  change Except.ok ((Except.bind (.ok t[sharedKey rk]?) _).toOption.join) = _
  rw [Except.bind, h]
  rfl

def fits (t : Store) (struct : Structure) (g k rk : String) : Bool :=
  match item? (sharedItems struct) g k with
  | none => false
  | some ty => (sharedOf t rk).any fun s => s.ty = ty

theorem fits_iff {struct : Structure} : fits t struct g k rk = true ↔ Fits t struct g k rk := by
  unfold fits Fits
  cases item? (sharedItems struct) g k with
  | none => simp
  | some ty =>
    simp only [Option.any_eq_true, decide_eq_true_eq, Option.some.injEq]
    constructor
    · rintro ⟨item, hi, rfl⟩
      exact ⟨_, item, rfl, hi, rfl⟩
    · rintro ⟨_, item, rfl, hi, rfl⟩
      exact ⟨item, hi, rfl⟩

theorem bindingFits_eval (ht : WellPlaced t) (struct : Structure) (g k rk : String) :
    (bindingFits (sharedItems struct) g k rk).eval t = .ok (fits t struct g k rk) := by
  unfold bindingFits fits
  cases item? (sharedItems struct) g k with
  | none => rfl
  | some ty =>
    have hro : (tryGetShared rk).ReadOnly := tryLoadMerged_readOnly _
    dsimp only
    rw [hro.eval_bind_ok (tryGetShared_eval ht rk)]
    rfl

def keptOf (t : Store) (struct : Structure) (g : String) (m : StrMap String) : StrMap String :=
  m.toList.foldl (fun kept e => if fits t struct g e.1 e.2 then kept.insert e.1 e.2 else kept) ∅

theorem getElem?_keptOf (t : Store) (struct : Structure) (g : String) (m : StrMap String) (k : String) :
    (keptOf t struct g m)[k]? = (m[k]?).filter fun rk => fits t struct g k rk := by
  rw [keptOf, getElem?_foldl_toList (f := fun k rk => if fits t struct g k rk then some rk else none)]
  · cases m[k]? <;> simp [Option.filter]
  · intro m e k
    by_cases h : fits t struct g e.1 e.2
    · simp only [h, if_true, KV.getElem?_insert, Option.some_or]
    · simp [h]

def retained (t : Store) (struct : Structure) (bindings : Bindings) : Bindings :=
  bindings.toList.foldl (fun (out : Bindings) e =>
    if (keptOf t struct e.1 e.2).isEmpty then out else out.insert e.1 (keptOf t struct e.1 e.2)) ∅

theorem getElem?_retained (t : Store) (struct : Structure) (bindings : Bindings) (g : String) :
    (retained t struct bindings)[g]? = (bindings[g]?).bind fun m =>
      if (keptOf t struct g m).isEmpty then none else some (keptOf t struct g m) := by
  rw [retained, getElem?_foldl_toList (f := fun g m =>
    if (keptOf t struct g m).isEmpty then none else some (keptOf t struct g m))]
  intro out e g
  by_cases h : (keptOf t struct e.1 e.2).isEmpty
  · simp [h]
  · simp only [h, KV.getElem?_insert, Option.some_or, Bool.false_eq_true, if_false]

/-- The bindings that survive a structure are those that fit it. -/
theorem item?_retained {struct : Structure} {bindings : Bindings} :
    item? (retained t struct bindings) g k = some rk ↔ item? bindings g k = some rk ∧ Fits t struct g k rk := by
  rw [item?, getElem?_retained, item?, ← fits_iff]
  cases bindings[g]? with
  | none => simp
  | some m =>
    have hk := getElem?_keptOf t struct g m k
    simp only [Option.bind_some]
    by_cases h : (keptOf t struct g m).isEmpty
    · rw [if_pos h, Option.bind_none]
      rw [Std.ExtTreeMap.isEmpty_iff.mp h, Std.ExtTreeMap.getElem?_empty] at hk
      rw [← Option.filter_eq_some_iff, ← hk]
    · rw [if_neg h, Option.bind_some, hk, Option.filter_eq_some_iff]

theorem retainBindings_eval (ht : WellPlaced t) (struct : Structure) (bindings : Bindings) :
    (retainBindings struct bindings).eval t = .ok (retained t struct bindings) := by
  have hinner : ∀ (g : String) (kept : StrMap String) (x : String × String), (do
      let fits ← bindingFits (sharedItems struct) g x.1 x.2
      pure (if fits then kept.insert x.1 x.2 else kept) : M (StrMap String)).ReadOnly :=
    fun g kept x => (bindingFits_readOnly _ _ _ _).bind fun _ => pure_readOnly _
  refine foldlM_eval (fun out e => ?_) (fun out e => ?_) _ _
  · exact (foldlM_readOnly (hinner e.1) _ _).bind fun _ => pure_readOnly _
  · have h : (e.2.toList.foldlM (fun (kept : StrMap String) (x : String × String) => do
        let fits ← bindingFits (sharedItems struct) e.1 x.1 x.2
        pure (if fits then kept.insert x.1 x.2 else kept)) ∅).eval t = .ok (keptOf t struct e.1 e.2) := by
      refine foldlM_eval (hinner e.1) (fun kept x => ?_) _ _
      rw [(bindingFits_readOnly _ _ _ _).eval_bind_ok (bindingFits_eval ht struct e.1 x.1 x.2)]
      rfl
    exact Prog.ReadOnly.eval_bind_ok (foldlM_readOnly (hinner e.1) _ _) h _

end

/-! ## Bindings after a draft update -/

section

/-- A binding of an item of the structure that is shared there, to a published item of its type. -/
def Bindable (t : Store) (index : StrMap (StrMap ItemDef)) (g k rk : String) : Prop :=
  ∃ d item, item? index g k = some d ∧ d.shared = true ∧ sharedOf t rk = some item ∧ item.ty = d.ty

theorem getShared_eval (ht : WellPlaced t) (rk : String) : (getShared rk).eval t = .ok (sharedOf t rk) := by
  rw [getShared, loadMerged, readAs_eval, parseRow_ok]
  exact reads_sharedKey ht rk

/-- What one binding of a draft update leaves bound was bound before, or can be bound. -/
theorem bindOne_ok {index : StrMap (StrMap ItemDef)} {acc acc' : Bindings × Bool} {bd : SharedBinding}
    (h : (bindOne index acc bd).eval t = .ok acc') (hk : item? acc'.1 g k = some rk) :
    item? acc.1 g k = some rk ∨ Bindable t index g k rk := by
  have hs : (bindOne index acc bd).exec ⟨t, []⟩ = (.ok acc', ⟨t, []⟩) :=
    (bindOne_readOnly index acc bd).exec_ok.mpr ⟨h, rfl⟩
  unfold bindOne at hs
  obtain ⟨d, hd, hs⟩ := okOr_bind.mp hs
  obtain ⟨hshared, hs⟩ := ensure_bind.mp hs
  dsimp only at hs
  split at hs
  · -- the binding is taken away, and with it a group left without bindings
    obtain ⟨rfl, -⟩ := pure_ok.mp hs
    refine .inl ?_
    split at hk
    · cases hm : acc.1[bd.group]? with
      | none => simpa only [hm] using hk
      | some m =>
        simp only [hm] at hk
        have hg : item? acc.1 bd.group k = m[k]? := by rw [item?, hm, Option.bind_some]
        split at hk
        · rw [item?, KV.getElem?_erase] at hk
          by_cases e : bd.group = g
          · rw [if_pos e] at hk; cases hk
          · rwa [if_neg e] at hk
        · rw [item?, KV.getElem?_insert] at hk
          by_cases e : bd.group = g
          · rw [if_pos e, Option.bind_some, KV.getElem?_erase] at hk
            by_cases e' : bd.key = k
            · rw [if_pos e'] at hk; cases hk
            · rw [if_neg e'] at hk
              rw [← e, hg, hk]
          · rwa [if_neg e] at hk
    · exact hk
  · obtain ⟨_, hs⟩ := ensure_bind.mp hs
    obtain ⟨o, ho, hs⟩ := loadMerged_bind.mp hs
    obtain ⟨item, rfl, hs⟩ := okOr_bind.mp hs
    obtain ⟨hty, hs⟩ := ensure_bind.mp hs
    obtain ⟨rfl, -⟩ := pure_ok.mp hs
    rw [item?_setItem] at hk
    by_cases e : bd.group = g ∧ bd.key = k
    · rw [if_pos e] at hk
      obtain ⟨rfl, rfl⟩ := e
      cases hk
      exact .inr ⟨d, item, hd, hshared, entity_eq_some.mpr ho, hty⟩
    · exact .inl (by rwa [if_neg e] at hk)

/-- What a draft update leaves bound was bound before, or can be bound. -/
theorem bindings_ok {index : StrMap (StrMap ItemDef)} (bs : List SharedBinding)
    {acc acc' : Bindings × Bool} (h : (bs.foldlM (bindOne index) acc).eval t = .ok acc')
    (hk : item? acc'.1 g k = some rk) : item? acc.1 g k = some rk ∨ Bindable t index g k rk := by
  induction bs generalizing acc with
  | nil =>
    rw [List.foldlM_nil] at h
    cases h
    exact .inl hk
  | cons bd bs ih =>
    rw [List.foldlM_cons, (bindOne_readOnly index acc bd).eval_bind] at h
    cases hb : (bindOne index acc bd).eval t with
    | error e => rw [hb] at h; cases h
    | ok acc₁ =>
      rw [hb] at h
      exact (ih h).elim (bindOne_ok hb) .inr

end

end Defing
