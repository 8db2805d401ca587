import Defing.Core.Apply

/-!
# What the accesses of a command do

Each access of `M`, run over a store whose writes go through. The lemmas on
successful runs are equivalences, so that rewriting with them turns a run of
a command into the list of its conditions and writes.
-/

namespace Defing

open KV (Prog Flat)

/-- A store whose writes go through, with the versions recorded so far. -/
abbrev State := Flat String Stored VersionWrite

variable {α β : Type} {s s' : State}

section
variable [Codec α]

theorem encode_injective {a b : α} (h : Codec.encode a = Codec.encode b) : a = b :=
  Option.some.inj (by rw [← Codec.written_encode a, h, Codec.written_encode])

theorem written_eq_some {v : Stored} {a : α} : Codec.written v = some a ↔ v = Codec.encode a :=
  ⟨fun h => (Codec.encode_written v a h).symm, fun h => h ▸ Codec.written_encode a⟩

variable [SerdeJson]

@[simp] theorem decode_encode (a : α) : Codec.decode (Codec.encode a) = some (Codec.reread a) := by
  rw [Codec.decode, Codec.written_encode, Option.map_some]

theorem decode_eq_some {v : Stored} {a : α} : Codec.decode v = some a ↔ ∃ x, v = Codec.encode x ∧ Codec.reread x = a := by
  simp [Codec.decode, Option.map_eq_some_iff, written_eq_some]

@[simp] theorem reread_exact [Codec.Exact α] (a : α) : Codec.reread a = a := Codec.Exact.reread_eq a

@[simp] theorem reread_branchState (st : BranchState) : Codec.reread st = rereadState st := rfl

@[simp] theorem reread_snapshot (snap : SnapshotMap) : Codec.reread snap = rereadSnapshot snap := rfl

@[simp] theorem reread_diff (diff : List DiffEntry) : Codec.reread diff = rereadDiff diff := rfl

@[simp] theorem reread_shared (item : SharedItem) : Codec.reread item = rereadShared item := rfl

theorem decode_encode_exact [Codec.Exact α] (a : α) : Codec.decode (Codec.encode a) = some a := by
  rw [decode_encode, reread_exact]

theorem decode_exact [Codec.Exact α] {v : Stored} {a : α} : Codec.decode v = some a ↔ v = Codec.encode a := by
  simp [decode_eq_some]

def Decodes (row : Option Stored) (o : Option α) : Prop := row.map Codec.decode = o.map some

theorem decodes_none {row : Option Stored} : Decodes row (none : Option α) ↔ row = none := by
  simp [Decodes]

theorem decodes_some {row : Option Stored} {a : α} :
    Decodes row (some a) ↔ ∃ x, row = some (Codec.encode x) ∧ Codec.reread x = a := by
  simp only [Decodes, Option.map_some, Option.map_eq_some_iff, decode_eq_some]
  exact ⟨fun ⟨_, hr, x, hv, hx⟩ => ⟨x, hv ▸ hr, hx⟩, fun ⟨x, hr, hx⟩ => ⟨_, hr, x, rfl, hx⟩⟩

@[simp] theorem decodes_encode (a : α) : Decodes (some (Codec.encode a)) (some (Codec.reread a)) := decodes_some.mpr ⟨a, rfl, rfl⟩

theorem Decodes.typed {o : Option α} {row : Option Stored} (h : Decodes row o) {v : Stored} (hv : row = some v) :
    ∃ a : α, v = Codec.encode a := by
  cases o with
  | none =>
    rw [decodes_none.mp h] at hv
    cases hv
  | some a =>
    obtain ⟨x, hx, -⟩ := decodes_some.mp h
    exact ⟨x, Option.some.inj (hv.symm.trans hx)⟩

theorem decodes_exact [Codec.Exact α] {row : Option Stored} {o : Option α} :
    Decodes row o ↔ row = o.map Codec.encode := by
  cases o <;> simp [decodes_none, decodes_some]

end

/-! ## Control -/

theorem pure_ok {a b : α} : (pure a : M α).exec s = (.ok b, s') ↔ a = b ∧ s' = s := by
  simp [eq_comm (a := s)]

theorem fail_ok {e : Error} {a : α} : (fail e : M α).exec s = (.ok a, s') ↔ False := by
  simp [fail]

theorem ensure_ok {c : Prop} [Decidable c] {e : Error} {u : Unit} :
    (ensure c e).exec s = (.ok u, s') ↔ c ∧ s' = s := by
  unfold ensure
  split <;> simp [fail, *, eq_comm (a := s)]

theorem okOr_ok {o : Option α} {e : Error} {a : α} :
    (okOr o e).exec s = (.ok a, s') ↔ o = some a ∧ s' = s := by
  cases o <;> simp [okOr, fail, eq_comm (a := s)]

theorem ensure_true {c : Prop} [Decidable c] (h : c) (e : Error) : (ensure c e).exec s = (.ok (), s) :=
  ensure_ok.mpr ⟨h, rfl⟩

theorem okOr_some (a : α) (e : Error) : (okOr (some a) e).exec s = (.ok a, s) := rfl

/-! ## Writes -/

theorem deletePending_exec (k : String) : (deletePending k).exec s = (.ok (), s.erase k) := rfl

theorem storeDelete_exec (k : String) : (storeDelete k).exec s = (.ok (), s.erase k) := rfl

theorem savePending_exec [Codec α] (k : String) (a : α) :
    (savePending k a).exec s = (.ok (), s.insert k (Codec.encode a)) := rfl

theorem deletePending_ok {k : String} {u : Unit} :
    (deletePending k).exec s = (.ok u, s') ↔ s' = s.erase k := by
  simp [deletePending_exec, eq_comm]

theorem storeDelete_ok {k : String} {u : Unit} : (storeDelete k).exec s = (.ok u, s') ↔ s' = s.erase k := by
  simp [storeDelete_exec, eq_comm]

theorem savePending_ok [Codec α] {k : String} {a : α} {u : Unit} :
    (savePending k a).exec s = (.ok u, s') ↔ s' = s.insert k (Codec.encode a) := by
  simp [savePending_exec, eq_comm]

/-! ## Reads -/

theorem getMerged_readOnly (k : String) : (getMerged k).ReadOnly := by
  rintro (_ | _) <;> trivial

theorem getPrefixMerged_readOnly (stem : String) : (getPrefixMerged stem).ReadOnly := by
  rintro (_ | _) <;> trivial

theorem ofExcept_readOnly (r : Except Error α) : (Prog.ofExcept r : M α).ReadOnly := by
  cases r <;> trivial

theorem pure_readOnly (a : α) : (pure a : M α).ReadOnly := trivial

theorem ensure_readOnly (c : Prop) [Decidable c] (e : Error) : (ensure c e).ReadOnly := by
  unfold ensure; split <;> trivial

theorem okOr_readOnly (o : Option α) (e : Error) : (okOr o e).ReadOnly := by
  cases o <;> trivial

section
variable {D : String → Prop}

theorem getMerged_within {k : String} (h : D k) : (getMerged k).Within D := by
  refine ⟨h, ?_⟩
  rintro (_ | _) <;> trivial

theorem getPrefixMerged_within {stem : String} (h : ∀ k, startsWith stem k → D k) : (getPrefixMerged stem).Within D := by
  refine ⟨h, ?_⟩
  rintro (_ | _) <;> trivial

theorem ofExcept_within (r : Except Error α) : (Prog.ofExcept r : M α).Within D := by
  cases r <;> trivial

theorem ensure_within (c : Prop) [Decidable c] (e : Error) : (ensure c e).Within D := by
  unfold ensure; split <;> trivial

theorem okOr_within (o : Option α) (e : Error) : (okOr o e).Within D := by
  cases o <;> trivial

end

theorem startsWith_append (stem s : String) : startsWith stem (stem ++ s) := by simp [startsWith]

theorem stripPrefix_append (stem s : String) : stripPrefix stem (stem ++ s) = some s := by
  rw [stripPrefix, if_pos (startsWith_append stem s), String.toList_append, List.drop_left, String.ofList_toList]

def rowsUnder (stem : String) (t : Store) : List (String × Stored) :=
  (t.filter fun k _ => startsWith stem k).toList

theorem getPrefixMerged_exec (stem : String) :
    (getPrefixMerged stem).exec s = (.ok (rowsUnder stem s.kv), s) := rfl

theorem getPrefixMerged_ok {stem : String} {rows : List (String × Stored)} :
    (getPrefixMerged stem).exec s = (.ok rows, s') ↔ rows = rowsUnder stem s.kv ∧ s' = s := by
  simp [getPrefixMerged_exec, eq_comm]

theorem mem_rowsUnder {stem k : String} {t : Store} {v : Stored} :
    (k, v) ∈ rowsUnder stem t ↔ startsWith stem k ∧ t[k]? = some v := by
  rw [rowsUnder, Std.ExtTreeMap.toList_filter, List.mem_filter, Std.ExtTreeMap.mem_toList_iff_getElem?_eq_some,
    and_comm]

section
variable [Codec α] [SerdeJson] {what key : String}

theorem readAs_readOnly (what key : String) : (readAs what key : M (Option α)).ReadOnly :=
  (getMerged_readOnly key).bind fun _ => ofExcept_readOnly _

theorem readAs_within {D : String → Prop} (what : String) {key : String} (h : D key) :
    (readAs what key : M (Option α)).Within D :=
  (getMerged_within h).bind fun _ => ofExcept_within _

theorem loadMerged_within {D : String → Prop} {key : String} (h : D key) : (loadMerged key : M (Option α)).Within D :=
  readAs_within _ h

theorem loadMerged_readOnly (key : String) : (loadMerged key : M (Option α)).ReadOnly := readAs_readOnly _ _

theorem tryLoadMerged_readOnly (key : String) : (tryLoadMerged key : M (Option α)).ReadOnly :=
  fun _ => trivial

theorem parseRow_ok {raw : Option Stored} {o : Option α} : parseRow what raw = .ok o ↔ Decodes raw o := by
  rcases raw with _ | v
  · cases o <;> simp [parseRow, Decodes]
  · cases h : (Codec.decode v : Option α) with
    | none => cases o <;> simp [parseRow, Decodes, h]
    | some a => cases o <;> simp [parseRow, Decodes, h]

theorem readAs_eval (t : Store) : (readAs what key : M (Option α)).eval t = parseRow what t[key]? := by
  rw [readAs, (getMerged_readOnly key).eval_bind]
  change (parseRow what t[key]? |> fun r => (Prog.ofExcept r : M (Option α)).eval t) = _
  cases parseRow (α := α) what t[key]? <;> rfl

theorem readAs_ok {o : Option α} :
    (readAs what key).exec s = (.ok o, s') ↔ Decodes s.kv[key]? o ∧ s' = s := by
  rw [(readAs_readOnly what key).exec_ok, readAs_eval, parseRow_ok]

theorem loadMerged_ok {o : Option α} :
    (loadMerged key).exec s = (.ok o, s') ↔ Decodes s.kv[key]? o ∧ s' = s := readAs_ok

theorem load_exec : (load key : M (Option α)).exec s = (loadMerged key).exec s := rfl

theorem loadMerged_exact [Codec.Exact α] {o : Option α} :
    (loadMerged key).exec s = (.ok o, s') ↔ s.kv[key]? = o.map Codec.encode ∧ s' = s := by
  rw [loadMerged_ok, decodes_exact]

theorem load_exact [Codec.Exact α] {o : Option α} :
    (load key).exec s = (.ok o, s') ↔ s.kv[key]? = o.map Codec.encode ∧ s' = s := by
  rw [load_exec, loadMerged_exact]

theorem loadMerged_some {a : α} (h : s.kv[key]? = some (Codec.encode a)) :
    (loadMerged key).exec s = (.ok (some (Codec.reread a)), s) := loadMerged_ok.mpr ⟨decodes_some.mpr ⟨a, h, rfl⟩, rfl⟩

theorem loadMerged_none (h : s.kv[key]? = none) : (loadMerged key : M (Option α)).exec s = (.ok none, s) :=
  loadMerged_ok.mpr ⟨decodes_none.mpr h, rfl⟩

end

/-! ## Loops -/

def eraseAll (s : State) (ks : List String) : State := ks.foldl Flat.erase s

theorem deleteRows_exec (rows : List (String × Stored)) :
    (deleteRows rows).exec s = (.ok (), eraseAll s (rows.map (·.1))) := by
  induction rows generalizing s with
  | nil => rfl
  | cons row rows ih =>
    change (deletePending row.1 >>= fun _ => deleteRows rows).exec s = _
    rw [Prog.exec_bind, deletePending_exec]
    exact ih

theorem deleteRows_ok {rows : List (String × Stored)} {u : Unit} :
    (deleteRows rows).exec s = (.ok u, s') ↔ s' = eraseAll s (rows.map (·.1)) := by
  simp [deleteRows_exec, eq_comm]

theorem getElem?_eraseAll (s : State) (ks : List String) (k : String) :
    (eraseAll s ks).kv[k]? = if k ∈ ks then none else s.kv[k]? := by
  induction ks generalizing s with
  | nil => simp [eraseAll]
  | cons a ks ih =>
    change (eraseAll (s.erase a) ks).kv[k]? = _
    rw [ih, Flat.erase_kv, KV.getElem?_erase]
    by_cases h : k ∈ ks
    · simp [h]
    · by_cases ha : a = k
      · simp [ha]
      · simp [h, ha, Ne.symm ha]

theorem run_storeDelete (b : KV.Buf String Stored VersionWrite) (k : String) :
    (storeDelete k).run b = (.ok (), { b with store := b.store.erase k }) := rfl

theorem run_deletes (ks : List String) (b : KV.Buf String Stored VersionWrite) :
    (ks.forM storeDelete).run b = (.ok (), { b with store := ks.foldl (fun t k => t.erase k) b.store }) := by
  induction ks generalizing b with
  | nil => rfl
  | cons k ks ih =>
    show (storeDelete k >>= fun _ => ks.forM storeDelete).run b = _
    rw [Prog.run_bind_of_ok (run_storeDelete b k), ih]
    rfl

theorem getElem?_deletes (t : Store) (ks : List String) (k : String) :
    (ks.foldl (fun t k => t.erase k) t)[k]? = if k ∈ ks then none else t[k]? := by
  have h := getElem?_eraseAll ⟨t, []⟩ ks k
  rw [← h]
  congr 1
  induction ks generalizing t with
  | nil => rfl
  | cons a ks ih => exact ih (t.erase a) (getElem?_eraseAll _ ks k)

@[simp] theorem eraseAll_notes (s : State) (ks : List String) : (eraseAll s ks).notes = s.notes := by
  induction ks generalizing s with
  | nil => rfl
  | cons a ks ih => exact ih (s.erase a)

theorem collect_readOnly {f : α → M (List β)} (hf : ∀ a, (f a).ReadOnly) :
    ∀ l : List α, (collect f l).ReadOnly
  | [] => trivial
  | a :: l => (hf a).bind fun _ => (collect_readOnly hf l).bind fun _ => trivial

theorem foldlM_readOnly {f : β → α → M β} (hf : ∀ b a, (f b a).ReadOnly) :
    ∀ (l : List α) (b : β), (l.foldlM f b).ReadOnly
  | [], _ => trivial
  | a :: l, b => by
    rw [List.foldlM_cons]
    exact (hf b a).bind fun b' => foldlM_readOnly hf l b'

theorem forM_readOnly {f : α → M Unit} (hf : ∀ a, (f a).ReadOnly) : ∀ l : List α, (l.forM f).ReadOnly
  | [] => trivial
  | a :: l => by
    change (f a >>= fun _ => l.forM f).ReadOnly
    exact (hf a).bind fun _ => forM_readOnly hf l

/-- A loop that goes through keeps whatever each of its passes keeps. -/
theorem mapM_ok {f : α → M β} (I : State → Prop)
    (hf : ∀ a s b s', I s → (f a).exec s = (.ok b, s') → I s') :
    ∀ (l : List α) (s s' : State) (bs : List β), I s → (l.mapM f).exec s = (.ok bs, s') → I s'
  | [], s, s', bs, h, he => by
    rw [List.mapM_nil, pure_ok] at he
    exact he.2 ▸ h
  | a :: l, s, s', bs, h, he => by
    rw [List.mapM_cons, Prog.exec_bind_ok] at he
    obtain ⟨b, s₁, h₁, he⟩ := he
    obtain ⟨bs', s₂, h₂, he⟩ := Prog.exec_bind_ok.mp he
    rw [pure_ok] at he
    exact he.2 ▸ mapM_ok I hf l s₁ s₂ bs' (hf a s b s₁ h h₁) h₂

end Defing
