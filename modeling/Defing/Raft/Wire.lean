import Defing.Raft.Frames
import Defing.Raft.RoundTrip

/-!
# Bytes as frames

What the handler makes of a body depends on the frames in it, whichever parts
it arrives in.
-/

namespace Defing

variable {V M : Type} [FrameCodec V M] {buf left bytes x : Bytes} {fs : List (Frame V M)} {st st' : Receiver V M}

/-! ## Streams as frames -/

/-- The buffer holds a frame as a whole if it is its length, a body of this length and the rest. -/
theorem nextFrame_some {f : Frame V M} {rest : Bytes} : nextFrame buf = .ok (some (f, rest)) ↔
    ∃ body, body.length ≤ maxFrameBytes ∧ FrameCodec.fromSlice body = .ok f ∧ buf = Bytes.be 4 body.length ++ body ++ rest := by
  constructor
  · intro h
    unfold nextFrame decodeFrame at h
    split at h
    · cases h
    · rename_i h4
      dsimp only at h
      split at h
      · cases h
      · rename_i hmax
        split at h
        · cases h
        · rename_i hn
          have hlen : ((buf.drop 4).take (Bytes.ofBe (buf.take 4))).length = Bytes.ofBe (buf.take 4) := by
            rw [List.length_take, List.length_drop]
            omega
          have hhead : Bytes.be 4 (Bytes.ofBe (buf.take 4)) = buf.take 4 := by
            have h' := Bytes.be_ofBe (buf.take 4)
            rwa [List.length_take, Nat.min_eq_left (by omega)] at h'
          cases hbody : (FrameCodec.fromSlice ((buf.drop 4).take (Bytes.ofBe (buf.take 4))) : Except String (Frame V M)) with
          | error e =>
            simp only [hbody] at h
            cases h
          | ok g =>
            simp only [hbody] at h
            obtain ⟨rfl, rfl⟩ := Prod.mk.inj (Option.some.inj (Except.ok.inj h))
            refine ⟨(buf.drop 4).take (Bytes.ofBe (buf.take 4)), by omega, hbody, ?_⟩
            rw [hlen, hhead, ← List.drop_drop, List.append_assoc, List.take_append_drop, List.take_append_drop]
  · intro ⟨body, hmax, hbody, hbuf⟩
    have hmod : body.length % 256 ^ 4 = body.length := by
      refine Nat.mod_eq_of_lt (Nat.lt_of_le_of_lt hmax ?_)
      decide
    have htake : buf.take 4 = Bytes.be 4 body.length := by
      rw [hbuf, List.append_assoc, List.take_left' (Bytes.length_be ..)]
    have hdrop : buf.drop 4 = body ++ rest := by
      rw [hbuf, List.append_assoc, List.drop_left' (Bytes.length_be ..)]
    have hlen : buf.length = 4 + body.length + rest.length := by
      rw [hbuf, List.length_append, List.length_append, Bytes.length_be]
    have hn : Bytes.ofBe (buf.take 4) = body.length := by rw [htake, Bytes.ofBe_be, hmod]
    have hrest : buf.drop (4 + body.length) = rest := by
      rw [← List.drop_drop, hdrop, List.drop_left]
    unfold nextFrame decodeFrame
    simp only [hn, hdrop, List.take_left, hbody, hrest]
    rw [if_neg (by omega), if_neg (by omega), if_neg (by omega)]

theorem nextFrame_append {res : Frame V M × Bytes} (h : nextFrame buf = .ok (some res)) :
    nextFrame (buf ++ x) = .ok (some (res.1, res.2 ++ x)) := by
  obtain ⟨body, hmax, hbody, hbuf⟩ := nextFrame_some.mp h
  refine nextFrame_some.mpr ⟨body, hmax, hbody, ?_⟩
  rw [hbuf, List.append_assoc]

theorem nextFrame_append_error {msg : String} (h : (nextFrame buf : Except String (Option (Frame V M × Bytes))) = .error msg) :
    (nextFrame (buf ++ x) : Except String (Option (Frame V M × Bytes))) = .error msg := by
  unfold nextFrame at h ⊢
  split at h
  · cases h
  · rename_i h4
    rw [if_neg (by rw [List.length_append]; omega), List.take_append_of_le_length (by omega)]
    dsimp only at h ⊢
    split at h
    · rename_i hmax
      rw [if_pos hmax]
      exact h
    · rename_i hmax
      split at h
      · cases h
      · rename_i hlen
        rw [if_neg hmax, if_neg (by rw [List.length_append]; omega), List.drop_append_of_le_length (by omega),
          List.take_append_of_le_length (by rw [List.length_drop]; omega)]
        split at h
        · exact h
        · cases h

/-- Some bytes are the frames one after the other, each a length and a body, and then something that is no whole frame. -/
inductive Parses : Bytes → List (Frame V M) → Bytes → Prop
  | done {left : Bytes} (h : (nextFrame left : Except String (Option (Frame V M × Bytes))) = .ok none) : Parses left [] left
  | next {body rest left : Bytes} {f : Frame V M} {fs : List (Frame V M)} (hlen : body.length ≤ maxFrameBytes)
      (hbody : FrameCodec.fromSlice body = .ok f) (hrest : Parses rest fs left) :
      Parses (Bytes.be 4 body.length ++ body ++ rest) (f :: fs) left

theorem Parses.first {f : Frame V M} (h : Parses buf (f :: fs) left) :
    ∃ rest, nextFrame buf = .ok (some (f, rest)) ∧ Parses rest fs left := by
  cases h with
  | next hlen hbody hrest => exact ⟨_, nextFrame_some.mpr ⟨_, hlen, hbody, rfl⟩, hrest⟩

theorem Parses.of_first {f : Frame V M} {rest : Bytes} (h : nextFrame buf = .ok (some (f, rest))) (hrest : Parses rest fs left) :
    Parses buf (f :: fs) left := by
  obtain ⟨body, hlen, hbody, rfl⟩ := nextFrame_some.mp h
  exact .next hlen hbody hrest

theorem Parses.nil (h : Parses buf ([] : List (Frame V M)) left) :
    (nextFrame buf : Except String (Option (Frame V M × Bytes))) = .ok none ∧ buf = left := by
  cases h with
  | done h => exact ⟨h, rfl⟩

theorem Parses.rest_none (h : Parses buf fs left) : (nextFrame left : Except String (Option (Frame V M × Bytes))) = .ok none := by
  induction h with
  | done hn => exact hn
  | next _ _ _ ih => exact ih

theorem Parses.unique {fs' : List (Frame V M)} {left' : Bytes} (h : Parses buf fs left) (h' : Parses buf fs' left') :
    fs = fs' ∧ left = left' := by
  induction fs generalizing buf fs' with
  | nil =>
    obtain ⟨hn, rfl⟩ := h.nil
    cases fs' with
    | nil => exact ⟨rfl, h'.nil.2⟩
    | cons f fs' =>
      obtain ⟨_, hf, _⟩ := h'.first
      rw [hn] at hf
      cases hf
  | cons f fs ih =>
    obtain ⟨rest, hf, hrest⟩ := h.first
    cases fs' with
    | nil =>
      rw [h'.nil.1] at hf
      cases hf
    | cons f' fs' =>
      obtain ⟨rest', hf', hrest'⟩ := h'.first
      rw [hf] at hf'
      obtain ⟨rfl, rfl⟩ := Prod.mk.inj (Option.some.inj (Except.ok.inj hf'))
      obtain ⟨rfl, rfl⟩ := ih hrest hrest'
      exact ⟨rfl, rfl⟩

/-- More bytes leave the frames that are there as they are. -/
theorem Parses.append {gs : List (Frame V M)} {left' : Bytes} (h : Parses buf fs left) (h' : Parses (left ++ x) gs left') :
    Parses (buf ++ x) (fs ++ gs) left' := by
  induction h with
  | done => exact h'
  | next hlen hbody _ ih =>
    rw [List.append_assoc]
    exact .next hlen hbody (ih h')

/-- The frames of the beginning of a stream come first among those of the whole. -/
theorem Parses.of_append (h : Parses (buf ++ x) fs left) :
    ∃ fs₁ left₁ fs₂, Parses buf fs₁ left₁ ∧ Parses (left₁ ++ x) fs₂ left ∧ fs = fs₁ ++ fs₂ := by
  induction hlen : buf.length using Nat.strong_induction_on generalizing buf fs with
  | _ n ih =>
    cases hn : (nextFrame buf : Except String (Option (Frame V M × Bytes))) with
    | error msg =>
      have happ := nextFrame_append_error (x := x) hn
      cases fs with
      | nil =>
        rw [h.nil.1] at happ
        cases happ
      | cons f fs =>
        obtain ⟨_, hf, _⟩ := h.first
        rw [hf] at happ
        cases happ
    | ok o =>
      cases o with
      | none => exact ⟨[], buf, fs, .done hn, h, rfl⟩
      | some res =>
        obtain ⟨f, rest⟩ := res
        have happ := nextFrame_append (x := x) hn
        have hlt := Receiver.length_nextFrame hn
        cases fs with
        | nil =>
          rw [h.nil.1] at happ
          cases happ
        | cons f' fs =>
          obtain ⟨rest', hf, hrest⟩ := h.first
          rw [happ] at hf
          obtain ⟨rfl, rfl⟩ := Prod.mk.inj (Option.some.inj (Except.ok.inj hf))
          obtain ⟨fs₁, left₁, fs₂, h₁, h₂, rfl⟩ := ih rest.length (by omega) hrest rfl
          exact ⟨f :: fs₁, left₁, fs₂, .of_first hn h₁, h₂, rfl⟩

/-! ## Draining -/

namespace Receiver

theorem drain_error {msg : String} (h : (nextFrame buf : Except String (Option (Frame V M × Bytes))) = .error msg) :
    st.drain buf = .error ⟨400, msg⟩ := by
  rw [drain.eq_def]
  split <;> simp_all

theorem drain_none (h : (nextFrame buf : Except String (Option (Frame V M × Bytes))) = .ok none) :
    st.drain buf = .ok (st, buf) := by
  rw [drain.eq_def]
  split <;> simp_all

theorem drain_some {f : Frame V M} {rest : Bytes} (h : nextFrame buf = .ok (some (f, rest))) :
    st.drain buf = (st.step f).bind fun st => st.drain rest := by
  rw [drain.eq_def]
  split
  · simp_all
  · simp_all
  · rename_i heq
    rw [h] at heq
    obtain ⟨rfl, rfl⟩ := Prod.mk.inj (Option.some.inj (Except.ok.inj heq))
    cases st.step f <;> rfl

theorem drain_append (buf x : Bytes) : st.drain (buf ++ x) = (st.drain buf).bind fun (st, rest) => st.drain (rest ++ x) := by
  induction h : buf.length using Nat.strong_induction_on generalizing buf st with
  | _ n ih =>
    cases hn : (nextFrame buf : Except String (Option (Frame V M × Bytes))) with
    | error msg =>
      rw [drain_error hn, drain_error (nextFrame_append_error hn)]
      rfl
    | ok o =>
      cases o with
      | none =>
        rw [drain_none hn]
        rfl
      | some res =>
        obtain ⟨f, rest⟩ := res
        have hlt := Receiver.length_nextFrame hn
        rw [drain_some hn, drain_some (nextFrame_append hn)]
        cases st.step f with
        | error e => rfl
        | ok st' => exact ih rest.length (by omega) rest rfl

theorem drain_ok : st.drain buf = .ok (st', left) ↔ ∃ fs, Parses buf fs left ∧ fs.foldlM step st = .ok st' := by
  induction h : buf.length using Nat.strong_induction_on generalizing buf st with
  | _ n ih =>
    cases hn : (nextFrame buf : Except String (Option (Frame V M × Bytes))) with
    | error msg =>
      rw [drain_error hn]
      constructor
      · intro h
        cases h
      · intro ⟨fs, hp, _⟩
        cases fs with
        | nil => rw [hp.nil.1] at hn; cases hn
        | cons f fs =>
          obtain ⟨_, hf, _⟩ := hp.first
          rw [hf] at hn
          cases hn
    | ok o =>
      cases o with
      | none =>
        rw [drain_none hn]
        constructor
        · intro h
          obtain ⟨rfl, rfl⟩ := Prod.mk.inj (Except.ok.inj h)
          exact ⟨[], .done hn, rfl⟩
        · intro ⟨fs, hp, hrun⟩
          obtain ⟨rfl, rfl⟩ := hp.unique (.done hn)
          obtain rfl := Except.ok.inj hrun
          rfl
      | some res =>
        obtain ⟨f, rest⟩ := res
        have hlt := Receiver.length_nextFrame hn
        rw [drain_some hn]
        constructor
        · intro hd
          cases hs : st.step f with
          | error e =>
            rw [hs] at hd
            cases hd
          | ok st₁ =>
            rw [hs] at hd
            obtain ⟨fs, hp, hrun⟩ := (ih _ (by omega) rfl).mp hd
            refine ⟨f :: fs, .of_first hn hp, ?_⟩
            rw [List.foldlM_cons, hs]
            exact hrun
        · intro ⟨fs, hp, hrun⟩
          cases fs with
          | nil => rw [hp.nil.1] at hn; cases hn
          | cons f' fs =>
            obtain ⟨rest', hf, hp⟩ := hp.first
            rw [hn] at hf
            obtain ⟨rfl, rfl⟩ := Prod.mk.inj (Option.some.inj (Except.ok.inj hf))
            rw [List.foldlM_cons] at hrun
            cases hs : st.step f with
            | error e =>
              rw [hs] at hrun
              cases hrun
            | ok st₁ =>
              rw [hs] at hrun
              exact (ih _ (by omega) rfl).mpr ⟨fs, hp, hrun⟩

theorem receive_map (parts : List Bytes) (h : (nextFrame buf : Except String (Option (Frame V M × Bytes))) = .ok none) :
    st.receive buf (parts.map .ok) = st.drain (buf ++ parts.flatten) := by
  induction parts generalizing st buf with
  | nil =>
    rw [List.flatten_nil, List.append_nil, drain_none h]
    rfl
  | cons part parts ih =>
    rw [List.map_cons, receive, List.flatten_cons, ← List.append_assoc, drain_append (buf ++ part)]
    cases hd : st.drain (buf ++ part) with
    | error e => rfl
    | ok r =>
      obtain ⟨fs, hp, _⟩ := drain_ok.mp hd
      exact ih hp.rest_none

theorem receive_parts {body : List (Except String Bytes)} {r : Receiver V M × Bytes} (h : st.receive buf body = .ok r) :
    ∃ parts : List Bytes, body = parts.map .ok := by
  induction body generalizing st buf with
  | nil => exact ⟨[], rfl⟩
  | cons item body ih =>
    cases item with
    | error e => cases h
    | ok part =>
      rw [receive] at h
      cases hd : st.drain (buf ++ part) with
      | error e =>
        rw [hd] at h
        cases h
      | ok r =>
        rw [hd] at h
        obtain ⟨parts, rfl⟩ := ih h
        exact ⟨part :: parts, rfl⟩

end Receiver

end Defing
