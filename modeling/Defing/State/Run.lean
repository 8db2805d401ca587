import Defing.State.Safe

/-!
# Runs of the state machine

What one `apply` does to a store whose rows are placed, and that the rows of
every reachable store are.
-/

namespace Defing

open KV (Prog)

section
variable [SerdeJson] {cmd : Command} {now : Int} {t : Store}

abbrev WellPlaced (t : Store) : Prop := Prog.Rows Placed t

omit [SerdeJson] in
theorem wellPlaced_empty : WellPlaced ∅ := by
  intro k v h
  simp at h

theorem wellPlaced_execute (ht : WellPlaced t) (cmd : Command) (now : Int) :
    WellPlaced (execute cmd now t).2.kv :=
  (Prog.rows_exec (C := rules (touches cmd) (touchesDirectly cmd)) (fun _ _ h => h.1)
    (applyInner_obeys cmd now) (s := ⟨t, []⟩) ht).1

/-- A command goes through as a whole, or fails and has done nothing but its direct deletes. -/
theorem apply_cases (ht : WellPlaced t) (cmd : Command) (now : Int) :
    (∃ events s, execute cmd now t = (.ok events, s) ∧
      apply cmd now t = { result := .ok events, store := s.kv, writes := s.notes }) ∨
    (∃ e, (execute cmd now t).1 = .error e ∧ (apply cmd now t).result = .error e ∧ (apply cmd now t).writes = [] ∧
      ∀ k : String, (apply cmd now t).store[k]? = t[k]? ∨
        touchesDirectly cmd k ∧ (apply cmd now t).store[k]? = none) := by
  cases h : (apply cmd now t).result with
  | ok events =>
    obtain ⟨s, hs, -⟩ := apply_ok h
    exact .inl ⟨events, s, hs, apply_eq hs⟩
  | error e =>
    refine .inr ⟨e, by rw [← apply_result, h], rfl, apply_writes_error h, fun k => ?_⟩
    have := (Prog.store_run (C := rules (touches cmd) (touchesDirectly cmd)) (fun _ _ h => h.1)
      (applyInner_obeys cmd now) (b := { store := t }) ht ht).1 k
    rcases hr : (applyInner cmd now).run { store := t } with ⟨_ | events, b⟩
    · rw [hr] at this
      simpa [apply, hr] using this
    · simp [apply, hr] at h

theorem wellPlaced_apply (ht : WellPlaced t) (cmd : Command) (now : Int) : WellPlaced (apply cmd now t).store := by
  rcases apply_cases ht cmd now with ⟨events, s, hs, he⟩ | ⟨e, -, -, -, hk⟩
  · have := wellPlaced_execute ht cmd now
    rw [hs] at this
    rw [he]
    exact this
  · intro k v hv
    rcases hk k with h | h
    · exact ht k v (h ▸ hv)
    · rw [h.2] at hv; cases hv

theorem wellPlaced_of_reach {allowed : Store → Command → Int → Prop} (h : Reach allowed t) : WellPlaced t := by
  induction h with
  | empty => exact wellPlaced_empty
  | step cmd now _ _ ih => exact wellPlaced_apply ih cmd now

omit [SerdeJson] in
theorem touches_of_direct {k : String} (h : touchesDirectly cmd k) : touches cmd k := by
  cases cmd <;> try exact h.elim
  obtain ⟨key, rfl⟩ := h
  exact .inl (outside_sharedDraftKey key)

omit [SerdeJson] in
theorem wellPlaced_eraseAll {s : State} (hs : WellPlaced s.kv) (ks : List String) :
    WellPlaced (eraseAll s ks).kv := by
  intro k v h
  rw [getElem?_eraseAll] at h
  split at h
  · cases h
  · exact hs k v h

/-- A command leaves the keys alone that it may not touch. -/
theorem apply_frame (ht : WellPlaced t) (cmd : Command) (now : Int) {k : String} (hk : ¬ touches cmd k) :
    (apply cmd now t).store[k]? = t[k]? := by
  rcases apply_cases ht cmd now with ⟨events, s, hs, he⟩ | ⟨e, -, -, -, h⟩
  · have := Prog.frame_exec (C := rules (touches cmd) (touchesDirectly cmd)) (fun _ _ h => h.1)
      (applyInner_obeys cmd now) (s := ⟨t, []⟩) ht (a := k) (fun v h => hk h.2) hk
    rw [he]
    change (applyInner cmd now).exec ⟨t, []⟩ = _ at hs
    rw [hs] at this
    exact this
  · exact (h k).resolve_right fun h => hk (touches_of_direct h.1)

/-! ## Buffered and write-through execution -/

omit [SerdeJson] in
/-- The merged reads see the buffered writes in program order, whatever the buffer holds. -/
theorem merged_reads (b : KV.Buf String Stored VersionWrite) (k stem : String) :
    b.lookup k = (b.pending.foldl KV.applyOp b.store)[k]? ∧
      b.rows (startsWith stem) = rowsUnder stem (b.pending.foldl KV.applyOp b.store) :=
  ⟨KV.Buf.lookup_eq b k, KV.Buf.rows_eq b _⟩

/-- A command that succeeds leaves the store and returns the events that it would with every write applied
at once and every read served by the store: no delete of its batch is of a key it had put before. -/
theorem apply_writes_through {events : List PublishEvent} (h : (apply cmd now t).result = .ok events) :
    (∃ s, (applyInner cmd now).exec ⟨t, []⟩ = (.ok events, s) ∧ (apply cmd now t).store = s.kv) ∧
      KV.Ordered ((applyInner cmd now).run { store := t }).2.pending ∧
      ∀ (b : KV.Buf String Stored VersionWrite) (k stem : String),
        b.lookup k = (b.pending.foldl KV.applyOp b.store)[k]? ∧
          b.rows (startsWith stem) = rowsUnder stem (b.pending.foldl KV.applyOp b.store) := by
  obtain ⟨s, hs, hstore, -⟩ := apply_ok h
  exact ⟨⟨s, hs, hstore⟩, (run_execute cmd now t).2, merged_reads⟩

/-! ## Runs on fixed inputs -/

def sampleDouble (k : Nat) : Rat := mkRat (7095568976510289 + k) (2 ^ 93)

/-- A JSON library for runs on fixed inputs: the sizes are those of values whose text needs no
escapes, and of the doubles some neighbours are each read as the next one. -/
@[reducible] def sampleJson : SerdeJson where
  parses text := text = "null"
  valueBytes
    | .string s => 32 + s.utf8ByteSize
    | .int i => 27 + (toString i).utf8ByteSize
    | .bool b => 29 + (toString b).utf8ByteSize
    | _ => 64
  sharedItemBytes item := 128 + item.key.utf8ByteSize
  mismatch ty _ := s!"missing field of {ty}"
  reread f := ((List.range 17).find? fun k => f = sampleDouble k).elim f fun k => sampleDouble (k + 1)

def runLog (log : List (Command × Int)) : Store := log.foldl (fun t e => (apply e.1 e.2 t).store) ∅

def runFrom (t : Store) (log : List (Command × Int)) : Store := log.foldl (fun t e => (apply e.1 e.2 t).store) t

theorem runFrom_append (t : Store) (log log' : List (Command × Int)) :
    runFrom t (log ++ log') = runFrom (runFrom t log) log' := List.foldl_append

theorem reachable_runFrom (h : Reachable t) (log : List (Command × Int)) : Reachable (runFrom t log) := by
  induction log generalizing t with
  | nil => exact h
  | cons e log ih => exact ih (.step e.1 e.2 h trivial)

theorem reachable_runLog (log : List (Command × Int)) : Reachable (runLog log) := by
  induction log using List.reverseRecOn with
  | nil => exact .empty
  | append_singleton log e ih =>
    rw [runLog, List.foldl_append]
    exact .step e.1 e.2 ih trivial

end

section
attribute [local instance] sampleJson

theorem apply_writes_through_sample :
    (∃ s, (applyInner (.projectDelete "p" "") 2).exec ⟨runLog [(.projectCreate "p" "" 0 none, 1)], []⟩ = (.ok [], s) ∧
        (apply (.projectDelete "p" "") 2 (runLog [(.projectCreate "p" "" 0 none, 1)])).store = s.kv) ∧
      KV.Ordered ((applyInner (.projectDelete "p" "") 2).run
        { store := runLog [(.projectCreate "p" "" 0 none, 1)] }).2.pending ∧
      ∀ (b : KV.Buf String Stored VersionWrite) (k stem : String),
        b.lookup k = (b.pending.foldl KV.applyOp b.store)[k]? ∧
          b.rows (startsWith stem) = rowsUnder stem (b.pending.foldl KV.applyOp b.store) :=
  apply_writes_through (by decide +kernel)

end

end Defing
