import Defing.Crypto.Lifecycle
import Defing.State.Renewal

/-!
# Secrets that cannot be read

A client may store a ciphertext of its own making. A nonce of another length
than twelve makes the thread panic, and the renewal of secrets gets no further
than the first ciphertext that cannot be rewrapped.
-/

namespace Defing

open KV (Prog)

/-! ## A renewal that fails -/

section
variable {f f' : Renewal} {newest : Ciphertext → Prop} {v : Stored} {k : String} {n : Nat}

/-- A renewal takes every ciphertext that is not of the newest generation to one that is, or fails. -/
def MayRenew (f : Renewal) (newest : Ciphertext → Prop) : Prop :=
  ∀ ct, (newest ct → f ct = none) ∧
    (¬ newest ct → (∃ ct', f ct = some (.ok ct') ∧ newest ct') ∨ ∃ e, f ct = some (.error e))

def Stuck (f : Renewal) (ct : Ciphertext) : Prop := ∃ e, f ct = some (.error e)

def forced (f : Renewal) (d : Ciphertext → Ciphertext) : Renewal := fun ct =>
  match f ct with
  | some (.error _) => some (.ok (d ct))
  | r => r

theorem forced_of_not_stuck {d : Ciphertext → Ciphertext} {ct : Ciphertext} (h : ¬ Stuck f ct) : forced f d ct = f ct := by
  unfold forced
  split
  · rename_i e he
    exact absurd ⟨e, he⟩ h
  · rfl

theorem forced_renews {d : Ciphertext → Ciphertext} (hf : MayRenew f newest) (hd : ∀ ct, newest (d ct)) :
    Renews (forced f d) newest := by
  intro ct
  obtain ⟨hnew, hold⟩ := hf ct
  constructor
  · intro h
    unfold forced
    rw [hnew h]
  · intro h
    rcases hold h with ⟨ct', hct, hct'⟩ | ⟨e, he⟩
    · exact ⟨ct', by unfold forced; rw [hct], hct'⟩
    · exact ⟨d ct, by unfold forced; rw [he], hd ct⟩

theorem rewrapValue_congr {v : Value} (h : ∀ ct, v = .secret ct → f ct = f' ct) : rewrapValue f v = rewrapValue f' v := by
  cases v with
  | secret ct => rw [rewrapValue, rewrapValue, h ct rfl]
  | _ => rfl

theorem rewrapValue_stuck {ct : Ciphertext} (h : Stuck f ct) : ∃ e, rewrapValue f (.secret ct) = .error e := by
  obtain ⟨e, he⟩ := h
  rw [rewrapValue, he]
  exact ⟨e, rfl⟩

theorem rewrapSnapshot_congr {snap : SnapshotMap} (h : ∀ ct, (Stored.snapshot snap).Holds ct → f ct = f' ct) :
    rewrapSnapshot f snap = rewrapSnapshot f' snap := by
  refine KV.passMap_congr fun g items hg => KV.passMap_congr fun key v hv => rewrapValue_congr ?_
  intro ct hct
  exact h ct ⟨g, key, by rw [item?, hg, Option.bind_some, hv, hct]⟩

theorem rewrapSnapshot_stuck {snap : SnapshotMap} {ct : Ciphertext} (hct : (Stored.snapshot snap).Holds ct) (h : Stuck f ct) :
    ∃ e, rewrapSnapshot f snap = .error e := by
  obtain ⟨g, key, hitem⟩ := hct
  obtain ⟨items, hg, hv⟩ := Option.bind_eq_some_iff.mp hitem
  exact KV.passMap_error ⟨g, items, hg, KV.passMap_error ⟨key, .secret ct, hv, rewrapValue_stuck h⟩⟩

theorem rewrapDiff_congr {d : List DiffEntry} (h : ∀ ct, (Stored.diff d).Holds ct → f ct = f' ct) :
    rewrapDiff f d = rewrapDiff f' d := by
  refine KV.passList_congr fun e he => ?_
  unfold rewrapEntry
  split
  · rename_i nv _ hnv
    rw [rewrapValue_congr fun ct hct => h ct ⟨e, he, by rw [hnv, hct]⟩]
  · rfl

theorem rewrapDiff_stuck {d : List DiffEntry} {ct : Ciphertext} (hbare : (Stored.diff d).Bare)
    (hct : (Stored.diff d).Holds ct) (h : Stuck f ct) : ∃ e, rewrapDiff f d = .error e := by
  obtain ⟨e, he, hnv⟩ := hct
  refine KV.passList_error ⟨e, he, ?_⟩
  obtain ⟨err, herr⟩ := rewrapValue_stuck h
  have hkind : e.kind = .upsert := by
    cases hk : e.kind with
    | upsert => rfl
    | delete =>
      rw [hbare e he hk] at hnv
      cases hnv
  unfold rewrapEntry
  simp only [hkind, hnv, herr]
  exact ⟨err, rfl⟩

theorem rewrapShared_congr {item : SharedItem} (h : ∀ ct, (Stored.shared item).Holds ct → f ct = f' ct) :
    rewrapShared f item = rewrapShared f' item := by
  rw [rewrapShared, rewrapShared, rewrapValue_congr h]

theorem rewrapShared_stuck {item : SharedItem} {ct : Ciphertext} (hct : (Stored.shared item).Holds ct) (h : Stuck f ct) :
    ∃ e, rewrapShared f item = .error e := by
  have hvalue : item.value = .secret ct := hct
  obtain ⟨e, he⟩ := rewrapValue_stuck h
  rw [rewrapShared, hvalue, he]
  exact ⟨e, rfl⟩

theorem rewrapDraft_congr {st : BranchState} (h : ∀ ct, (Stored.branchState st).Holds ct → f ct = f' ct) :
    rewrapDraft f st = rewrapDraft f' st := by
  rw [rewrapDraft, rewrapDraft]
  refine congrArg (Except.map _) (KV.passMap_congr fun g items hg => KV.passMap_congr fun key dv hdv => ?_)
  rw [rewrapDraftValue, rewrapDraftValue, rewrapValue_congr]
  intro ct hct
  exact h ct ⟨g, key, dv, by rw [item?, hg, Option.bind_some, hdv], hct⟩

theorem rewrapDraft_stuck {st : BranchState} {ct : Ciphertext} (hct : (Stored.branchState st).Holds ct) (h : Stuck f ct) :
    ∃ e, rewrapDraft f st = .error e := by
  obtain ⟨g, key, dv, hitem, hvalue⟩ := hct
  obtain ⟨items, hg, hdv⟩ := Option.bind_eq_some_iff.mp hitem
  obtain ⟨e, he⟩ := rewrapValue_stuck h
  have hentry : rewrapDraftValue f dv = .error e := by
    rw [rewrapDraftValue, hvalue, he]
    rfl
  obtain ⟨e', he'⟩ := KV.passMap_error ⟨g, items, hg, KV.passMap_error ⟨key, dv, hdv, e, hentry⟩⟩
  rw [rewrapDraft, he']
  exact ⟨e', rfl⟩

variable [SerdeJson]

theorem rewrapAs_congr {α : Type} [Codec α] {pass pass' : α → Except Error (α × Bool)}
    (h : ∀ a, Codec.decode v = some a → pass a = pass' a) : rewrapAs pass k v n = rewrapAs pass' k v n := by
  unfold rewrapAs
  cases hv : (Codec.decode v : Option α) with
  | none => rfl
  | some a => simp only [h a hv]

theorem rewrapRow_congr (h : ∀ ct, v.Holds ct → f ct = f' ct) : rewrapRow f n (k, v) = rewrapRow f' n (k, v) := by
  replace h : ∀ ct, (v.mapValues rereadValue).Holds ct → f ct = f' ct := fun ct hct => h ct (holds_reread.mp hct)
  have hsnap : rewrapAs (rewrapSnapshot f) k v n = rewrapAs (rewrapSnapshot f') k v n := by
    refine rewrapAs_congr fun a ha => ?_
    obtain ⟨x, rfl, rfl⟩ := decode_eq_some.mp ha
    exact rewrapSnapshot_congr h
  have hdiff : rewrapAs (rewrapDiff f) k v n = rewrapAs (rewrapDiff f') k v n := by
    refine rewrapAs_congr fun a ha => ?_
    obtain ⟨x, rfl, rfl⟩ := decode_eq_some.mp ha
    exact rewrapDiff_congr h
  have hshared : rewrapAs (rewrapShared f) k v n = rewrapAs (rewrapShared f') k v n := by
    refine rewrapAs_congr fun a ha => ?_
    obtain ⟨x, rfl, rfl⟩ := decode_eq_some.mp ha
    exact rewrapShared_congr h
  have hdraft : rewrapAs (rewrapDraft f) k v n = rewrapAs (rewrapDraft f') k v n := by
    refine rewrapAs_congr fun a ha => ?_
    obtain ⟨x, rfl, rfl⟩ := decode_eq_some.mp ha
    exact rewrapDraft_congr h
  rw [rewrapRow, rewrapRow]
  simp only [hsnap, hdiff, hshared, hdraft]

/-! ## Rows that stop a run -/

theorem rewrapRow_passedOver (hp : Placed k v) (hk : PassedOver k) : rewrapRow f n (k, v) = pure n := by
  cases v
  case snapshot snap =>
    obtain ⟨id, b, m, hn, ⟨-, rfl⟩ | rfl⟩ := hp
    · refine absurd hk (not_passedOver (by simp [snapshotKey, kProject]) ?_)
      rw [segments_snapshotKey hn.plain.1 hn.plain.2]
      simp
    · refine absurd hk (not_passedOver (by simp [graySnapKey, kProject]) ?_)
      rw [segments_graySnapKey hn.plain.1 hn.plain.2]
      simpa using repr_ne (by decide) m
  case diff d =>
    obtain ⟨id, b, m, hn, -, rfl⟩ := hp
    refine absurd hk (not_passedOver (by simp [diffKey, kProject]) ?_)
    rw [segments_diffKey hn.plain.1 hn.plain.2]
    simp
  case shared item =>
    obtain ⟨hkey, hkeys⟩ := hp
    rw [rewrapRow_shared (plain_of_validKeyName hkey) hkeys, if_pos ((passedOver_shared hkeys).mp hk)]
  case branchState st =>
    obtain ⟨id, b, hn, rfl⟩ := hp
    rw [rewrapRow_branchStateKey hn, if_pos ((passedOver_branchStateKey hn).mp hk)]
  all_goals exact rewrapRow_else rfl rfl rfl rfl

theorem run_rewrapAs_error {α : Type} [Codec α] {pass : α → Except Error (α × Bool)} {a : α}
    (h : ∃ e, pass (Codec.reread a) = .error e) (b : Buffer) : ∃ e, (rewrapAs pass k (Codec.encode a) n).run b = (.error e, b) := by
  obtain ⟨e, he⟩ := h
  refine ⟨e, ?_⟩
  rw [rewrapAs, decode_encode]
  simp only [he]
  rfl

/-- A row that is read as what it is and holds what cannot be renewed. -/
theorem rewrapRow_stuck (hp : Placed k v) (hbare : v.Bare) (hk : ¬ PassedOver k) {ct : Ciphertext} (hct : v.Holds ct)
    (h : Stuck f ct) (b : Buffer) : ∃ e, (rewrapRow f n (k, v)).run b = (.error e, b) := by
  replace hct := holds_reread.mpr hct
  cases v
  case snapshot snap =>
    obtain ⟨id, b', m, hn, ⟨-, rfl⟩ | rfl⟩ := hp
    · rw [rewrapRow_snapshotKey]
      exact run_rewrapAs_error (rewrapSnapshot_stuck hct h) b
    · rw [rewrapRow_graySnapKey hn]
      exact run_rewrapAs_error (rewrapSnapshot_stuck hct h) b
  case diff d =>
    obtain ⟨id, b', m, hn, -, rfl⟩ := hp
    rw [rewrapRow_diffKey hn]
    exact run_rewrapAs_error (rewrapDiff_stuck (bare_mapValues hbare) hct h) b
  case shared item =>
    obtain ⟨hkey, hkeys⟩ := hp
    rw [rewrapRow_shared (plain_of_validKeyName hkey) hkeys, if_neg fun hpo => hk ((passedOver_shared hkeys).mpr hpo)]
    exact run_rewrapAs_error (rewrapShared_stuck hct h) b
  case branchState st =>
    obtain ⟨id, b', hn, rfl⟩ := hp
    rw [rewrapRow_branchStateKey hn, if_neg fun hpo => hk ((passedOver_branchStateKey hn).mpr hpo)]
    exact run_rewrapAs_error (rewrapDraft_stuck hct h) b
  all_goals exact hct.elim

def Clear (f : Renewal) (k : String) (v : Stored) : Prop := PassedOver k ∨ ∀ ct, v.Holds ct → ¬ Stuck f ct

theorem passes_of_clear {d : Ciphertext → Ciphertext} (hf : MayRenew f newest) (hd : ∀ ct, newest (d ct)) (hp : Placed k v)
    (hbare : v.Bare) (h : Clear f k v) (n : Nat) (b : Buffer) (hb : b.store[k]? = some v) :
    ∃ n', (rewrapRow f n (k, v)).run b = (.ok n', { b with store := b.store.insert k (after (forced f d) newest k v) }) := by
  obtain ⟨c, hrun, -⟩ := passes_of_placed (forced_renews hf hd) hp hbare n b hb
  refine ⟨n + c, ?_⟩
  rw [← hrun]
  rcases h with hk | h
  · rw [rewrapRow_passedOver hp hk, rewrapRow_passedOver hp hk]
  · rw [rewrapRow_congr fun ct hct => (forced_of_not_stuck (h ct hct)).symm]

theorem stops_of_not_clear (hp : Placed k v) (hbare : v.Bare) (h : ¬ Clear f k v) (n : Nat) (b : Buffer) :
    ∃ e, (rewrapRow f n (k, v)).run b = (.error e, b) := by
  obtain ⟨hk, h⟩ := not_or.mp h
  simp only [not_forall, not_not] at h
  obtain ⟨ct, hct, hstuck⟩ := h
  exact rewrapRow_stuck hp hbare hk hct hstuck b

/-! ## Runs that stop -/

def Gets (f : Renewal) (l : List (String × Stored)) (k : String) : Prop :=
  ∀ e ∈ l, compare e.1 k ≠ .gt → Clear f e.1 e.2

open Classical in
theorem run_rows_stuck {d : Ciphertext → Ciphertext} (hf : MayRenew f newest) (hd : ∀ ct, newest (d ct))
    (l : List (String × Stored)) (n : Nat) (b : Buffer) (hplaced : ∀ e ∈ l, Placed e.1 e.2 ∧ e.2.Bare)
    (hl : ∀ e ∈ l, b.store[e.1]? = some e.2) (hsorted : l.Pairwise fun e e' => compare e.1 e'.1 = .lt) (k : String) :
    ((l.foldlM (rewrapRow f) n).run b).2.store[k]? =
      if k ∈ l.map (·.1) ∧ Gets f l k then (b.store[k]?).map (after (forced f d) newest k) else b.store[k]? := by
  induction l generalizing n b with
  | nil =>
    rw [if_neg (by simp)]
    rfl
  | cons e l ih =>
    obtain ⟨hlt, hsorted⟩ := List.pairwise_cons.mp hsorted
    obtain ⟨hp, hbare⟩ := hplaced e List.mem_cons_self
    rw [List.foldlM_cons, Prog.run_bind]
    by_cases hclear : Clear f e.1 e.2
    · obtain ⟨n', hrun⟩ := passes_of_clear hf hd hp hbare hclear n b (hl e List.mem_cons_self)
      have hne : ∀ e' ∈ l, e.1 ≠ e'.1 := by
        intro e' he' hsame
        have := hlt e' he'
        simp [hsame] at this
      have hrest : ∀ e' ∈ l, (b.store.insert e.1 (after (forced f d) newest e.1 e.2))[e'.1]? = some e'.2 := by
        intro e' he'
        rw [KV.getElem?_insert_ne _ (hne e' he')]
        exact hl e' (List.mem_cons_of_mem _ he')
      rw [hrun]
      change ((l.foldlM (rewrapRow f) n').run _).2.store[k]? = _
      rw [ih n' _ (fun e' he' => hplaced e' (List.mem_cons_of_mem _ he')) hrest hsorted]
      by_cases hk : e.1 = k
      · subst hk
        have hout : e.1 ∉ l.map (·.1) := by
          intro hmem
          obtain ⟨e', he', hsame⟩ := List.mem_map.mp hmem
          exact hne e' he' hsame.symm
        have hgets : Gets f (e :: l) e.1 := by
          intro e' he' hle
          rcases List.mem_cons.mp he' with rfl | he'
          · exact hclear
          · exact absurd (Std.OrientedCmp.gt_of_lt (hlt e' he')) hle
        rw [if_neg fun h => hout h.1, if_pos ⟨by simp, hgets⟩, KV.getElem?_insert, if_pos rfl, hl e List.mem_cons_self]
        rfl
      · have hgets : Gets f (e :: l) k ↔ Gets f l k := by
          constructor
          · exact fun h e' he' => h e' (List.mem_cons_of_mem _ he')
          · intro h e' he' hle
            rcases List.mem_cons.mp he' with rfl | he'
            · exact hclear
            · exact h e' he' hle
        have hmem : k ∈ (e :: l).map (·.1) ↔ k ∈ l.map (·.1) := by simp [Ne.symm hk]
        simp only [hgets, hmem]
        rw [KV.getElem?_insert_ne _ hk]
    · obtain ⟨err, hrun⟩ := stops_of_not_clear hp hbare hclear n b
      rw [hrun]
      change b.store[k]? = _
      rw [if_neg]
      intro ⟨hmem, hgets⟩
      refine hclear (hgets e List.mem_cons_self ?_)
      -- the row is the first of the list
      obtain ⟨e', he', rfl⟩ := List.mem_map.mp hmem
      rcases List.mem_cons.mp he' with rfl | he'
      · simp
      · rw [hlt e' he']
        simp

def Passable (f : Renewal) (t : Store) (k : String) : Prop :=
  ∀ (k' : String) (v : Stored), t[k']? = some v → compare k' k ≠ .gt → Clear f k' v

open Classical in
/-- A run renews the rows before the first one that stops it, and leaves the others as they are. -/
theorem run_rewrapDeks_stuck {d : Ciphertext → Ciphertext} {t : Store} (hf : MayRenew f newest) (hd : ∀ ct, newest (d ct))
    (ht : Regular t) (k : String) :
    ((rewrapDeks f).run { store := t }).2.store[k]? =
      if Passable f t k then (t[k]?).map (after (forced f d) newest k) else t[k]? := by
  have hrows : (getPrefixMerged "").run { store := t } = (.ok t.toList, { store := t }) := by
    change (Prog.ofExcept (.ok (KV.Buf.rows _ _)) : M _).run _ = _
    rw [rows_all]
    rfl
  have hrow : ∀ e, e ∈ t.toList ↔ t[e.1]? = some e.2 := fun e => Std.ExtTreeMap.mem_toList_iff_getElem?_eq_some
  rw [rewrapDeks, Prog.run_bind, hrows]
  change ((t.toList.foldlM (rewrapRow f) 0).run { store := t }).2.store[k]? = _
  rw [run_rows_stuck hf hd t.toList 0 { store := t } (fun e he => ht _ _ ((hrow e).mp he)) (fun e he => (hrow e).mp he)
    Std.ExtTreeMap.ordered_keys_toList k]
  have hgets : Gets f t.toList k ↔ Passable f t k := by
    constructor
    · exact fun h k' v hv => h (k', v) ((hrow _).mpr hv)
    · exact fun h e he => h e.1 e.2 ((hrow e).mp he)
  rw [hgets]
  cases hv : t[k]? with
  | none => simp
  | some v =>
    have hmem : k ∈ t.toList.map (·.1) := List.mem_map.mpr ⟨(k, v), (hrow (k, v)).mpr hv, rfl⟩
    simp only [hmem, true_and]

end

/-! ## Ciphertexts as they come from clients -/

def Panics {α : Type} (r : Except Fault α) : Prop := ∃ message, r = .error (.panic message)

theorem bind_panics {α β : Type} {x : Except Fault α} {g : α → Except Fault β} :
    Panics (x >>= g) ↔ Panics x ∨ ∃ a, x = .ok a ∧ Panics (g a) := by
  cases x with
  | ok a =>
    constructor
    · exact fun h => .inr ⟨a, rfl, h⟩
    · intro h
      rcases h with ⟨_, h⟩ | ⟨a', ha, h⟩
      · cases h
      · obtain rfl := Except.ok.inj ha
        exact h
  | error e =>
    constructor
    · intro ⟨m, hm⟩
      exact .inl ⟨m, congrArg Except.error (Except.error.inj hm)⟩
    · intro h
      rcases h with ⟨m, h⟩ | ⟨_, h, _⟩
      · exact ⟨m, congrArg Except.error (Except.error.inj h)⟩
      · cases h

theorem not_panics_mapError {α : Type} {x : Except String α} {g : String → String} :
    ¬ Panics (x.mapError fun e => Fault.err (g e)) := by
  intro ⟨m, h⟩
  cases x <;> cases h

theorem nonceFromSlice_panics {raw : Bytes} : Panics (nonceFromSlice raw) ↔ raw.length ≠ 12 := by
  unfold nonceFromSlice Panics
  split <;> simp_all

theorem newFromSlice_not_panics {key : Bytes} : ¬ Panics (newFromSlice key) := by
  unfold newFromSlice Panics
  split <;> simp

theorem kekOf_total {ring : KeyRing} {kek : Kek} {g : Nat} (h : ring.current = .ok kek) : ∃ kek', kekOf ring g = some kek' := by
  unfold kekOf
  cases hg : ring.get g with
  | some kek' => exact ⟨kek', rfl⟩
  | none =>
    have hcur := current_ok.mp h
    have hmem : ring.generation ∈ (List.range' 1 ring.generation).reverse := by
      have hpos : ring.generation ≠ 0 := by
        intro hzero
        rw [hzero] at hcur
        cases hcur
      rw [List.mem_reverse, List.mem_range'_1]
      omega
    exact Option.isSome_iff_exists.mp (List.findSome?_isSome_iff.mpr ⟨_, hmem, by rw [hcur]; rfl⟩)

section
variable [Aead] [Base64] {ring : KeyRing} {kek : Kek} {c : Ciphertext}

def Decryptable (ring : KeyRing) (c : Ciphertext) : Prop := ∃ plain, decryptSecret ring c = .ok plain

def rewrapError : Fault → Error
  | .err message => .internal s!"rewrap: {message}"
  | .panic message => .internal message

/-- What the job `RewrapDeks` renews, by a ring and what it draws at random. -/
def rewrapOld (ring : KeyRing) (draws : Ciphertext → Nonce) : Renewal :=
  renewOld ring.generation fun ct => (rewrapDek ring (draws ct) ct).mapError rewrapError

def NonceText (text : String) : Prop := ∀ raw, b64 text = .ok raw → raw.length = 12

/-- The nonces of a ciphertext, as far as a decryption gets. -/
structure Harmless (ring : KeyRing) (c : Ciphertext) : Prop where
  edekNonce : NonceText c.edekNonce
  nonce : ∀ kek dek, kekOf ring c.dekV = some kek → unwrapDek kek c = .ok dek → dek.length = 32 → NonceText c.nonce

/-- An old ciphertext that the key it names does not unwrap. -/
def Locked (ring : KeyRing) (c : Ciphertext) : Prop :=
  c.dekV < ring.generation ∧ ∀ kek dek, ring.get c.dekV = some kek → unwrapDek kek c ≠ .ok dek

/-- No stored ciphertext makes the server panic, and a run of the renewal leaves none of an old generation that can be
decrypted. -/
def Unbroken [SerdeJson] (ring : KeyRing) (draws : Ciphertext → Nonce) (t : Store) : Prop :=
  (∀ (k : String) (v : Stored) (c : Ciphertext), t[k]? = some v → v.Holds c →
    ¬ Panics (decryptSecret ring c) ∧ ∀ nonce, ¬ Panics (rewrapDek ring nonce c)) ∧
  ∀ (k : String) (v : Stored) (c : Ciphertext), ((rewrapDeks (rewrapOld ring draws)).run { store := t }).2.store[k]? = some v →
    v.Holds c → Decryptable ring c → c.dekV = ring.generation

/-- The renewal gets to a row: none up to it has a ciphertext that stops it. -/
def Gettable (ring : KeyRing) (t : Store) (k : String) : Prop :=
  ¬ PassedOver k ∧ ∀ (k' : String) (v : Stored) (c : Ciphertext), t[k']? = some v → compare k' k ≠ .gt → ¬ PassedOver k' →
    v.Holds c → ¬ Locked ring c

omit [Aead] in
theorem nonce_panics {α : Type} {text : String} {g : Bytes → Except Fault α} (hg : ∀ raw, ¬ Panics (g raw)) :
    Panics (b64 text >>= fun raw => nonceFromSlice raw >>= g) ↔ ¬ NonceText text := by
  rw [bind_panics]
  simp only [bind_panics, nonceFromSlice_panics, hg, and_false, exists_false, or_false]
  unfold NonceText
  simp only [not_forall]
  constructor
  · intro h
    rcases h with h | ⟨raw, hraw, hlen⟩
    · exact absurd h not_panics_mapError
    · exact ⟨raw, hraw, hlen⟩
  · exact fun ⟨raw, hraw, hlen⟩ => .inr ⟨raw, hraw, hlen⟩

theorem unwrapDek_panics : Panics (unwrapDek kek c) ↔ ¬ NonceText c.edekNonce := by
  refine nonce_panics fun raw => ?_
  rw [bind_panics]
  intro h
  rcases h with h | ⟨_, _, h⟩
  · exact not_panics_mapError h
  · exact not_panics_mapError h

theorem decryptSecret_panics (h : ring.current = .ok kek) : ¬ Panics (decryptSecret ring c) ↔ Harmless ring c := by
  obtain ⟨kek', hk⟩ := kekOf_total (g := c.dekV) h
  have hct : ∀ (dek raw : Bytes), ¬ Panics (b64 c.ct >>= fun ct => aeadDecrypt dek raw ct) := by
    intro dek raw hp
    rcases bind_panics.mp hp with hp | ⟨_, _, hp⟩
    · exact not_panics_mapError hp
    · exact not_panics_mapError hp
  unfold decryptSecret
  simp only [hk]
  rw [bind_panics, unwrapDek_panics]
  simp only [bind_panics (x := newFromSlice _), newFromSlice_not_panics, false_or]
  constructor
  · intro hno
    obtain ⟨hedek, hrest⟩ := not_or.mp hno
    refine ⟨not_not.mp hedek, ?_⟩
    intro kek₁ dek hkek hdek hlen
    obtain rfl := Option.some.inj (hk.symm.trans hkek)
    by_contra hnonce
    exact hrest ⟨dek, hdek, dek, if_pos hlen, (nonce_panics (hct dek)).mpr hnonce⟩
  · intro hh hp
    rcases hp with hp | ⟨dek, hdek, dek', hlen, hp⟩
    · exact hp hh.edekNonce
    · unfold newFromSlice at hlen
      split at hlen
      · exact (nonce_panics (hct dek')).mp hp (hh.nonce kek' dek hk hdek ‹_›)
      · cases hlen

theorem rewrapDek_panics {edekNonce : Nonce} (h : NonceText c.edekNonce) : ¬ Panics (rewrapDek ring edekNonce c) := by
  unfold rewrapDek
  split
  · intro ⟨_, hp⟩
    cases hp
  · rename_i kek hget
    intro hp
    rcases bind_panics.mp hp with hp | ⟨dek, _, hp⟩
    · exact unwrapDek_panics.mp hp h
    · -- a ring with some key has a newest one
      have hcur : ∃ kek, ring.current = .ok kek := by
        unfold KeyRing.current
        cases hlast : ring.entries.getLast? with
        | some kek => exact ⟨kek, rfl⟩
        | none =>
          unfold KeyRing.get at hget
          rw [List.getLast?_eq_none_iff.mp hlast] at hget
          simp at hget
      obtain ⟨kek', hcur⟩ := hcur
      rcases bind_panics.mp hp with ⟨m, hp⟩ | ⟨_, _, hp⟩
      · rw [hcur] at hp
        cases hp
      · rcases bind_panics.mp hp with hp | ⟨_, _, hp⟩
        · unfold wrapDek at hp
          rcases bind_panics.mp hp with hp | ⟨_, _, ⟨_, hp⟩⟩
          · exact not_panics_mapError hp
          · cases hp
        · obtain ⟨_, hp⟩ := hp
          cases hp

theorem rewrapDek_total (ha : Aead.Ideal) (h : ring.current = .ok kek) (edekNonce : Nonce) :
    (∃ c', rewrapDek ring edekNonce c = .ok c') ↔ ∃ kek dek, ring.get c.dekV = some kek ∧ unwrapDek kek c = .ok dek := by
  unfold rewrapDek
  cases hget : ring.get c.dekV with
  | none => simp
  | some kek₁ =>
    constructor
    · intro ⟨c', hc⟩
      obtain ⟨dek, hdek, _⟩ := Result.bind_ok.mp hc
      exact ⟨kek₁, dek, rfl, hdek⟩
    · intro ⟨kek₂, dek, hkek, hdek⟩
      obtain rfl := Option.some.inj hkek
      obtain ⟨w, hw⟩ := wrapDek_total ha kek dek edekNonce
      exact ⟨_, Result.bind_ok.mpr ⟨dek, hdek, Result.bind_ok.mpr ⟨kek, h, Result.bind_ok.mpr ⟨w, hw, rfl⟩⟩⟩⟩

/-! ## The job -/

variable {draws : Ciphertext → Nonce}

theorem rewrapOld_ok {c' : Ciphertext} (h : rewrapOld ring draws c = some (.ok c')) : c'.dekV = ring.generation := by
  unfold rewrapOld renewOld at h
  split at h
  · cases h
  · exact (rewrapDek_body (Result.mapError_ok.mp (Option.some.inj h))).1

theorem rewrapOld_may (ring : KeyRing) (draws : Ciphertext → Nonce) : MayRenew (rewrapOld ring draws) fun c => ring.generation ≤ c.dekV := by
  intro c
  constructor
  · intro hnew
    exact if_pos hnew
  · intro hold
    have hsome : rewrapOld ring draws c = some ((rewrapDek ring (draws c) c).mapError rewrapError) := if_neg hold
    cases hres : (rewrapDek ring (draws c) c).mapError rewrapError with
    | error e => exact .inr ⟨e, hsome.trans (congrArg some hres)⟩
    | ok c' =>
      have hc := hsome.trans (congrArg some hres)
      exact .inl ⟨c', hc, (rewrapOld_ok hc).ge⟩

theorem stuck_iff (ha : Aead.Ideal) (h : ring.current = .ok kek) : Stuck (rewrapOld ring draws) c ↔ Locked ring c := by
  have hres : (∃ e, (rewrapDek ring (draws c) c).mapError rewrapError = .error e) ↔ ¬ ∃ c', rewrapDek ring (draws c) c = .ok c' := by
    cases rewrapDek ring (draws c) c with
    | ok c' => simp [Except.mapError]
    | error e => simp [Except.mapError]
  unfold Stuck rewrapOld renewOld Locked
  by_cases hold : c.dekV ≥ ring.generation
  · simp [hold, Nat.not_lt.mpr hold]
  · rw [if_neg hold]
    simp only [Option.some.injEq, hres, rewrapDek_total ha h, Nat.lt_of_not_le hold, true_and]
    simp only [not_exists, not_and]

theorem passable_iff (ha : Aead.Ideal) (h : ring.current = .ok kek) {t : Store} {k : String} :
    Gettable ring t k ↔ ¬ PassedOver k ∧ Passable (rewrapOld ring draws) t k := by
  refine and_congr_right fun _ => ?_
  constructor
  · intro hget k' v hv hle
    by_cases hk' : PassedOver k'
    · exact .inl hk'
    · exact .inr fun c hc hstuck => hget k' v c hv hle hk' hc ((stuck_iff ha h).mp hstuck)
  · intro hpass k' v c hv hle hk' hc hlocked
    rcases hpass k' v hv hle with hpo | hclear
    · exact hk' hpo
    · exact hclear c hc ((stuck_iff ha h).mpr hlocked)

variable [SerdeJson]

theorem run_rewrapOld (draws : Ciphertext → Nonce) (ha : Aead.Ideal) (h : ring.current = .ok kek) {t : Store} (ht : Regular t) {k : String} {v : Stored}
    (hv : t[k]? = some v) :
    ((rewrapDeks (rewrapOld ring draws)).run { store := t }).2.store[k]? = some v ∧
        (Gettable ring t k → ∀ c, v.Holds c → ring.generation ≤ c.dekV) ∨
      ∃ w : Ciphertext → Ciphertext, ((rewrapDeks (rewrapOld ring draws)).run { store := t }).2.store[k]? =
          some ((v.mapValues rereadValue).rewrap w) ∧
        Gettable ring t k ∧ ∀ c, v.Holds c → ring.generation ≤ c.dekV ∧ w c = c ∨ c.dekV < ring.generation ∧ (w c).dekV = ring.generation := by
  have hnew : ∀ c : Ciphertext, ring.generation ≤ ({ c with dekV := ring.generation } : Ciphertext).dekV := fun _ => Nat.le_refl _
  have hrow := run_rewrapDeks_stuck (d := fun c => { c with dekV := ring.generation }) (rewrapOld_may ring draws) hnew ht k
  rw [hv] at hrow
  by_cases hpass : Passable (rewrapOld ring draws) t k
  · rw [if_pos hpass, Option.map_some] at hrow
    by_cases hk : PassedOver k ∨ v.Renewed fun c => ring.generation ≤ c.dekV
    · rw [after, if_pos hk] at hrow
      exact .inl ⟨hrow, fun hget => hk.resolve_left hget.1⟩
    · rw [after, if_neg hk] at hrow
      refine .inr ⟨_, hrow, (passable_iff ha h).mpr ⟨(not_or.mp hk).1, hpass⟩, ?_⟩
      intro c hc
      have hstuck : ¬ Stuck (rewrapOld ring draws) c := by
        rcases hpass k v hv (by simp) with hpo | hclear
        · exact absurd hpo (not_or.mp hk).1
        · exact hclear c hc
      rw [renewed, forced_of_not_stuck hstuck]
      obtain ⟨hnewest, hold⟩ := rewrapOld_may ring draws c
      by_cases hgen : ring.generation ≤ c.dekV
      · rw [hnewest hgen]
        exact .inl ⟨hgen, rfl⟩
      · rcases hold hgen with ⟨c', hc', _⟩ | ⟨e, he⟩
        · rw [hc']
          exact .inr ⟨Nat.lt_of_not_le hgen, rewrapOld_ok hc'⟩
        · exact absurd ⟨e, he⟩ hstuck
  · rw [if_neg hpass] at hrow
    exact .inl ⟨hrow, fun hget => absurd ((passable_iff ha h).mp hget).2 hpass⟩

theorem keys_of_run {t : Store} (ht : Regular t) {k : String}
    (hv : t[k]? = none) : ((rewrapDeks (rewrapOld ring draws)).run { store := t }).2.store[k]? = none := by
  have hnew : ∀ c : Ciphertext, ring.generation ≤ ({ c with dekV := ring.generation } : Ciphertext).dekV := fun _ => Nat.le_refl _
  rw [run_rewrapDeks_stuck (d := fun c => { c with dekV := ring.generation }) (rewrapOld_may ring draws) hnew ht k, hv]
  simp

/-- The stored ciphertexts cannot break the server exactly if their nonces are nonces, and what can be decrypted is of
the newest generation or of an older one, in a row that the renewal gets to. -/
theorem unbroken_iff (ha : Aead.Ideal) {t : Store} (ht : Reachable t) (ring : KeyRing) (draws : Ciphertext → Nonce)
    (hring : ring.entries ≠ []) :
    Unbroken ring draws t ↔ ∀ (k : String) (v : Stored) (c : Ciphertext), t[k]? = some v → v.Holds c →
      Harmless ring c ∧ (Decryptable ring c → c.dekV = ring.generation ∨ c.dekV < ring.generation ∧ Gettable ring t k) := by
  have hregular := regular_of_reach ht
  obtain ⟨kek, h⟩ : ∃ kek, ring.current = .ok kek := by
    unfold KeyRing.current
    rw [List.getLast?_eq_some_getLast hring]
    exact ⟨_, rfl⟩
  constructor
  · intro ⟨hpanic, hnew⟩ k v c hv hc
    refine ⟨(decryptSecret_panics h).mp (hpanic k v c hv hc).1, fun hdec => ?_⟩
    rcases run_rewrapOld draws ha h hregular hv with ⟨hrow, _⟩ | ⟨w, hrow, hget, hw⟩
    · exact .inl (hnew k v c hrow hc hdec)
    · rcases hw c hc with ⟨_, hsame⟩ | ⟨hold, _⟩
      · exact .inl (hnew k _ c hrow (holds_rewrap.mpr ⟨c, holds_reread.mpr hc, hsame⟩) hdec)
      · exact .inr ⟨hold, hget⟩
  · intro hall
    refine ⟨?_, ?_⟩
    · intro k v c hv hc
      have hh := (hall k v c hv hc).1
      exact ⟨(decryptSecret_panics h).mpr hh, fun _ => rewrapDek_panics hh.edekNonce⟩
    · intro k v' c hv' hc hdec
      cases hv : t[k]? with
      | none =>
        rw [keys_of_run hregular hv] at hv'
        cases hv'
      | some v =>
        rcases run_rewrapOld draws ha h hregular hv with ⟨hrow, hget⟩ | ⟨w, hrow, _, hw⟩
        · rw [hrow] at hv'
          obtain rfl := Option.some.inj hv'
          rcases (hall k v c hv hc).2 hdec with hgen | ⟨hold, hget'⟩
          · exact hgen
          · exact absurd (hget hget' c hc) (Nat.not_le.mpr hold)
        · rw [hrow] at hv'
          obtain rfl := Option.some.inj hv'
          obtain ⟨c₀, hc₀, rfl⟩ := holds_rewrap.mp hc
          replace hc₀ := holds_reread.mp hc₀
          rcases hw c₀ hc₀ with ⟨hgen, hsame⟩ | ⟨_, hgen⟩
          · rw [hsame] at hdec ⊢
            rcases (hall k v c₀ hv hc₀).2 hdec with hgen' | ⟨hold, _⟩
            · exact hgen'
            · exact absurd hgen (Nat.not_le.mpr hold)
          · exact hgen

end

section
attribute [local instance] sampleJson sampleBase64 sampleAead

def olderSecret : Ciphertext :=
  match encryptSecret (.new (sampleKek 1)) sampleDraw [1, 2, 3] with
  | .ok c => c
  | .error _ => { enc := "", v := 0, dekV := 0, nonce := "", ct := "", edek := "", edekNonce := "" }

def olderLog : List (Command × Int) := [
  (.sharedDraftUpdate { key := "s", ty := .secret, secret := true, value := .secret olderSecret, version := 0 } "", 1)]

/-- The secret is decrypted before the renewal, which gets to it. -/
theorem unbroken_sample :
    Unbroken ((KeyRing.new (sampleKek 1)).push (sampleKek 2)) (fun _ => sampleNonce) (runLog olderLog) ∧
      Decryptable ((KeyRing.new (sampleKek 1)).push (sampleKek 2)) olderSecret ∧ olderSecret.dekV = 1 := by
  have hrows : (runLog olderLog).toList.map (·.1) = [sharedDraftKey "s"] ∧
      (entity SharedItem (runLog olderLog) (sharedDraftKey "s")).map (·.value) = some (.secret olderSecret) := by
    decide +kernel
  have hrow : ∀ (k : String) (v : Stored) (c : Ciphertext), (runLog olderLog)[k]? = some v → v.Holds c →
      k = sharedDraftKey "s" ∧ c = olderSecret := by
    intro k v c hv hc
    have hmem : k ∈ (runLog olderLog).toList.map (·.1) :=
      List.mem_map.mpr ⟨(k, v), Std.ExtTreeMap.mem_toList_iff_getElem?_eq_some.mpr hv, rfl⟩
    rw [hrows.1] at hmem
    obtain rfl := List.mem_singleton.mp hmem
    obtain ⟨item, hitem, hsecret⟩ := Option.map_eq_some_iff.mp hrows.2
    obtain ⟨x, hx, rfl⟩ := row_of_entity hitem
    obtain rfl := Option.some.inj (hv.symm.trans hx)
    have hvalue : x.value = .secret c := hc
    exact ⟨rfl, Value.secret.inj (hvalue.symm.trans (rereadValue_eq_secret.mp hsecret))⟩
  have hnonces : (b64 olderSecret.edekNonce).toOption.map List.length = some 12 ∧
      (b64 olderSecret.nonce).toOption.map List.length = some 12 := by decide +kernel
  have hnonce : ∀ {text}, (b64 text).toOption.map List.length = some 12 → NonceText text := by
    intro text h raw hraw
    rw [hraw] at h
    exact Option.some.inj h
  have hopens : (unwrapDek (sampleKek 1) olderSecret).toOption.isSome ∧
      (decryptSecret ((KeyRing.new (sampleKek 1)).push (sampleKek 2)) olderSecret) = .ok [1, 2, 3] ∧
      olderSecret.dekV = 1 := by decide +kernel
  refine ⟨(unbroken_iff sampleAead_ideal (reachable_runLog _) _ _ (by simp [KeyRing.push])).mpr fun k v c hv hc => ?_,
    ⟨_, hopens.2.1⟩, hopens.2.2⟩
  obtain ⟨rfl, rfl⟩ := hrow k v c hv hc
  refine ⟨⟨hnonce hnonces.1, fun _ _ _ _ _ => hnonce hnonces.2⟩, fun _ => .inr ⟨?_, ?_, ?_⟩⟩
  · rw [hopens.2.2]
    decide
  · intro hk
    have := (passedOver_shared (.inr rfl)).mp hk
    simp at this
  · rintro k' v' c' hv' - - hc' ⟨-, hlocked⟩
    obtain ⟨-, rfl⟩ := hrow k' v' c' hv' hc'
    cases hdek : unwrapDek (sampleKek 1) olderSecret with
    | ok dek => exact hlocked (sampleKek 1) dek (by rw [hopens.2.2]; rfl) hdek
    | error e =>
      rw [hdek] at hopens
      cases hopens.1

def craftedSecret : Ciphertext := { enc := "aes-256-gcm", v := 1, dekV := 1, nonce := "", ct := "", edek := "", edekNonce := "" }

def craftedLog : List (Command × Int) := [
  (.projectCreate "p" "" 0 none, 1),
  (.structureDraftSet "p" 1 [{ name := "g", items := [{ key := "k", ty := .secret }] }] "", 2),
  (.publishStructure "p" "" "r0" "" 0 .block, 3),
  (.draftUpdate "p" "dev" [⟨"g", "k", .secret craftedSecret⟩] [] [] "" 0 none, 4)]

/-- A draft with such a secret panics whoever decrypts it. -/
theorem crafted_secret_panics : ¬ ∀ t, Reachable t → ∀ ring draws, ring.entries ≠ [] → Unbroken ring draws t := by
  intro h
  have hdraft : (stateOf (runLog craftedLog) "p" "dev").bind (fun st => (item? st.valueDraft "g" "k").map (·.value)) =
      some (.secret craftedSecret) := by
    decide +kernel
  obtain ⟨st, hst, hitem⟩ := Option.bind_eq_some_iff.mp hdraft
  obtain ⟨dv, hdv, hvalue⟩ := Option.map_eq_some_iff.mp hitem
  obtain ⟨x, hrow, rfl⟩ := row_of_entity hst
  have hheld : (Codec.encode x).Holds craftedSecret := holds_reread.mp ⟨"g", "k", dv, hdv, hvalue⟩
  have hpanics := (h _ (reachable_runLog craftedLog) (.new (sampleKek 1)) (fun _ => sampleNonce) (by simp [KeyRing.new])).1
    _ _ craftedSecret hrow hheld
  exact hpanics.1 ⟨_, rfl⟩

end

end Defing
