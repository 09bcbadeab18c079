import LuaMachine.Concatenation
import LuaMachine.Proofs.Arguments
import LuaMachine.Proofs.Transparency

/-!
Concatenation one pair at a time. Operands are folded from the right into one value, which is kept out of
the registers as long as only text is joined. To join whole runs of operands does the same.
-/

namespace LuaMachine

/-- Two texts, one after the other. -/
def Value.joined (v w : Value) : Value := .str ((v.toText?).getD "" ++ (w.toText?).getD "")

section

variable (run : Run)

/-- What becomes of a pair that is not text: the handler of the left operand is called, or that of the right one
if the left one has none. -/
def combine (v w : Value) : Action Value := do
  match ← view fun m => m.handler? v .concat with
  | some h => callHandler run h [v, w]
  | none =>
    match ← view fun m => m.handler? w .concat with
    | some h => callHandler run h [v, w]
    | none => raise (.operand .concatenate (if v.isText then w else v).type)

/-- Folds the last `k` of the registers from one on into a value, which is that of the register behind them.
Before anything is called, it is in its register. -/
def foldPairs (first : Nat) : Nat → Value → Action Unit
  | 0, acc => writeSlot first acc
  | k + 1, acc => do
    let v ← readSlot (first + k)
    if v.isText && acc.isText then foldPairs first k (v.joined acc)
    else
      writeSlot (first + k + 1) acc
      let w ← combine run v acc
      writeSlot (first + k) w
      foldPairs first k w

/-- Concatenates registers into the first of them, one pair at a time from the right. -/
def concatPairs (first n : Nat) : Action Unit := do
  let last ← readSlot (first + n - 1)
  foldPairs run first (n - 1) last

end

variable {run : Run} {m m' : Machine} {first i k n : Nat} {v w acc : Value} {us vs : List Value}

/-! Texts -/

theorem foldl_text (s : String) (vs : List Value) :
    vs.foldl (fun s v => s ++ (v.toText?).getD "") s = s ++ joinText vs := by
  induction vs generalizing s with
  | nil => simp [joinText]
  | cons v vs ih => rw [joinText, List.foldl_cons, List.foldl_cons, ih, ih, String.append_assoc, String.empty_append]

theorem joinText_append (us vs : List Value) : joinText (us ++ vs) = joinText us ++ joinText vs := by
  rw [joinText, List.foldl_append, foldl_text]
  rfl

theorem joinText_cons (v : Value) (vs : List Value) : joinText (v :: vs) = (v.toText?).getD "" ++ joinText vs := by
  rw [joinText, List.foldl_cons, foldl_text, String.empty_append]

/-- To join texts one after the other from the right is to join them all. -/
theorem foldr_joined (us : List Value) (s : String) : us.foldr Value.joined (.str s) = .str (joinText us ++ s) := by
  induction us with
  | nil => simp [joinText]
  | cons u us ih =>
    rw [List.foldr_cons, ih, joinText_cons, String.append_assoc]
    rfl

/-- The handler of a pair is looked for on the left first. -/
theorem combine_eq (run : Run) (v w : Value) : combine run v w = (do
    match ← view fun m => m.binaryHandler? v w .concat with
    | none => raise (.operand .concatenate (if v.isText then w else v).type)
    | some h => callHandler run h [v, w]) := by
  funext m
  simp only [combine, Action.bind_ok (Action.view_apply _ _), Machine.binaryHandler?]
  cases m.handler? v .concat with
  | some h => rfl
  | none =>
    simp only [Action.bind_ok (Action.view_apply _ _), Option.none_or]
    cases m.handler? w .concat <;> rfl

/-! Runs of text -/

/-- The longest run of texts before a register. -/
theorem exists_textRun (h : first + k ≤ m.running.stack.size) :
    ∃ us i, k = i + us.length ∧ HoldsFrom m.running.stack (first + i) us ∧ (∀ u ∈ us, u.isText = true) ∧
      textRun (first + k) k m = .ok us.length m ∧
      ∀ j, i = j + 1 → ∃ v, m.running.stack[first + j]? = some v ∧ v.isText = false := by
  induction k with
  | zero => exact ⟨[], 0, rfl, nofun, nofun, rfl, nofun⟩
  | succ k ih =>
    have hget := Array.getElem?_eq_getElem (show first + k < m.running.stack.size by omega)
    generalize m.running.stack[first + k] = v at hget
    have hread : readSlot (first + (k + 1) - 1) m = .ok v m := readSlot_eq_ok.2 ⟨hget, rfl⟩
    cases hv : v.isText with
    | true =>
      obtain ⟨us, i, rfl, hus, htext, hrun, hbefore⟩ := ih (by omega)
      refine ⟨us ++ [v], i, by simp; omega, hus.append fun j hj => ?_, ?_, ?_, hbefore⟩
      · obtain rfl : j = 0 := by simpa using hj
        simpa [Nat.add_assoc] using hget
      · simpa [or_imp, forall_and, hv] using htext
      · rw [textRun, Action.bind_ok hread]
        simp only [hv, if_true, List.length_append, List.length_singleton]
        exact Action.bind_ok hrun
    | false =>
      refine ⟨[], k + 1, rfl, nofun, nofun, ?_, fun j hj => ⟨v, ?_, hv⟩⟩
      · rw [textRun, Action.bind_ok hread]
        simp only [hv]
        rfl
      · obtain rfl := Nat.succ.inj hj
        exact hget

/-- Texts are folded without a change of the machine. -/
theorem foldPairs_texts (h : HoldsFrom m.running.stack (first + i) us) (hus : ∀ u ∈ us, u.isText = true)
    (hacc : acc.isText = true) :
    foldPairs run first (i + us.length) acc m = foldPairs run first i (us.foldr Value.joined acc) m := by
  induction us using List.reverseRecOn generalizing acc with
  | nil => rfl
  | append_singleton us u ih =>
    have hread : readSlot (first + (i + us.length)) m = .ok u m :=
      readSlot_eq_ok.2 ⟨by simpa [Nat.add_assoc] using h.last, rfl⟩
    have hu : u.isText = true := hus u (by simp)
    rw [List.length_append, List.length_singleton, ← Nat.add_assoc, foldPairs, Action.bind_ok hread]
    simp only [hu, hacc, Bool.and_true, if_true, List.foldr_append]
    exact ih h.init (fun u hu => hus u (List.mem_append_left _ hu)) rfl

/-- Behind what is not text, the value may be in its register beforehand. -/
theorem foldPairs_withStack (hi : first + i < m.running.stack.size)
    (hbefore : ∀ j, i = j + 1 → ∃ v, m.running.stack[first + j]? = some v ∧ v.isText = false) :
    foldPairs run first i acc (m.withStack (m.running.stack.setIfInBounds (first + i) acc)) =
      foldPairs run first i acc m := by
  have hwrite := writeSlot_apply (m := m) acc hi
  have hagain : writeSlot (first + i) acc (m.withStack (m.running.stack.setIfInBounds (first + i) acc)) =
      writeSlot (first + i) acc m := by
    rw [hwrite, writeSlot_apply (m := m.withStack _) acc (by simpa using hi)]
    simp
  cases i with
  | zero => exact hagain
  | succ j =>
    obtain ⟨v, hget, hv⟩ := hbefore j rfl
    have hread : readSlot (first + j) m = .ok v m := readSlot_eq_ok.2 ⟨hget, rfl⟩
    have hread' (m' : Machine) (h : m' = m.withStack (m.running.stack.setIfInBounds (first + (j + 1)) acc)) :
        readSlot (first + j) m' = .ok v m' :=
      readSlot_eq_ok.2 ⟨by rw [h]; simpa [Array.getElem?_setIfInBounds] using hget, rfl⟩
    simp only [foldPairs, Action.bind_ok hread, Action.bind_ok (hread' _ rfl), hv, Bool.false_and,
      Bool.false_eq_true, if_false]
    rw [Action.bind_apply, Action.bind_apply, Nat.add_assoc, hagain]

/-- To write what is there changes nothing. -/
theorem writeSlot_self (h : m.running.stack[i]? = some v) : writeSlot i v m = .ok () m := by
  obtain ⟨hi, rfl⟩ := Array.getElem?_eq_some_iff.1 h
  rw [writeSlot_apply _ hi, Array.setIfInBounds_def, dif_pos hi, Array.set_getElem_self]
  rfl

/-- A run of texts becomes one text, in the first of their registers. -/
theorem concatStep_texts (hacc : m.running.stack[first + (k + 1)]? = some acc)
    (hv : m.running.stack[first + k]? = some v) (htext : v.isText && acc.isText)
    (hus : HoldsFrom m.running.stack (first + i) us) (hk : k = i + us.length)
    (hrun : textRun (first + k) k m = .ok us.length m) :
    concatStep run (k + 1 + 1) (first + (k + 1) + 1) m = .ok (us.length + 2)
      (m.withStack (m.running.stack.setIfInBounds (first + i) (.str (joinText (us ++ [v, acc]))))) := by
  have hlast : readSlot (first + (k + 1) + 1 - 1) m = .ok acc m := readSlot_eq_ok.2 ⟨hacc, rfl⟩
  have hprev : readSlot (first + (k + 1) + 1 - 2) m = .ok v m := readSlot_eq_ok.2 ⟨hv, rfl⟩
  have hvs : HoldsFrom m.running.stack (first + i) (us ++ [v, acc]) := by
    refine hus.append fun j hj => ?_
    obtain rfl | rfl : j = 0 ∨ j = 1 := by simp at hj; omega
    · simpa [hk, Nat.add_assoc] using hv
    · simpa [hk, Nat.add_assoc] using hacc
  have htexts : textRun (first + (k + 1) + 1 - 2) (k + 1 + 1 - 2) m = .ok us.length m := hrun
  have hread := readSlots_apply hvs
  have hlength : (us ++ [v, acc]).length = us.length + 2 := by simp
  have hstart : first + (k + 1) + 1 - (us.length + 2) = first + i := by omega
  have hlt : first + i < m.running.stack.size := by
    have := (Array.getElem?_eq_some_iff.1 hv).1
    omega
  rw [hlength] at hread
  rw [concatStep, Action.bind_ok hlast, Action.bind_ok hprev]
  simp only [htext, if_true]
  rw [Action.bind_ok htexts]
  simp only [hstart]
  rw [Action.bind_ok hread, Action.bind_ok (writeSlot_apply _ hlt)]
  rfl

/-- Another pair becomes what its handler gives, in the first of its registers. -/
theorem concatStep_combine (hacc : m.running.stack[first + (k + 1)]? = some acc)
    (hv : m.running.stack[first + k]? = some v) (htext : (v.isText && acc.isText) = false) (n : Nat) :
    concatStep run n (first + (k + 1) + 1) m = (do
      let w ← combine run v acc
      writeSlot (first + k) w
      pure 2) m := by
  have hlast : readSlot (first + (k + 1) + 1 - 1) m = .ok acc m := readSlot_eq_ok.2 ⟨hacc, rfl⟩
  have hprev : readSlot (first + (k + 1) + 1 - 2) m = .ok v m := readSlot_eq_ok.2 ⟨hv, rfl⟩
  rw [concatStep, Action.bind_ok hlast, Action.bind_ok hprev, combine_eq]
  simp only [htext, Bool.false_eq_true, if_false, bind_assoc, Action.bind_ok (Action.view_apply _ _)]
  cases m.binaryHandler? v acc .concat <;> rfl

/-- Joining runs does the same as joining pairs, from any number of operands on. -/
theorem concatRange_eq_foldPairs {fuel : Nat} (hfuel : k ≤ fuel) (h : m.running.stack[first + k]? = some acc) :
    concatRange run fuel (k + 1) (first + k + 1) m = foldPairs run first k acc m := by
  induction k using Nat.strong_induction_on generalizing fuel acc m with
  | _ k ih =>
  have hlt := (Array.getElem?_eq_some_iff.1 h).1
  obtain _ | k := k
  · have hdone : concatRange run fuel (0 + 1) (first + 0 + 1) = pure () := by cases fuel <;> rfl
    rw [hdone]
    exact (writeSlot_self h).symm
  obtain ⟨fuel, rfl⟩ : ∃ n, fuel = n + 1 := ⟨fuel - 1, by omega⟩
  have hget := Array.getElem?_eq_getElem (show first + k < m.running.stack.size by omega)
  generalize m.running.stack[first + k] = v at hget
  have hprev : readSlot (first + k) m = .ok v m := readSlot_eq_ok.2 ⟨hget, rfl⟩
  have hmany : ¬ k + 1 + 1 ≤ 1 := by omega
  rw [concatRange, if_neg hmany, foldPairs, Action.bind_ok hprev]
  cases htext : v.isText && acc.isText with
  | true =>
    obtain ⟨us, i, rfl, hus, htexts, hrun, hbefore⟩ :=
      exists_textRun (show first + k ≤ m.running.stack.size by omega)
    rw [Action.bind_ok (concatStep_texts h hget htext hus rfl hrun)]
    simp only [if_true]
    have hi : first + i < m.running.stack.size := by omega
    have htotal : i + us.length + 1 + 1 - (us.length + 2 - 1) = i + 1 := by omega
    have hfinish : first + (i + us.length + 1) + 1 - (us.length + 2 - 1) = first + i + 1 := by omega
    have hjoined : us.foldr Value.joined (v.joined acc) = .str (joinText (us ++ [v, acc])) := by
      rw [Value.joined, foldr_joined, joinText_append, joinText_cons, joinText_cons]
      simp [joinText]
    rw [foldPairs_texts hus htexts rfl, hjoined, ← foldPairs_withStack hi hbefore, htotal, hfinish]
    exact ih i (by omega) (by omega) (Array.getElem?_setIfInBounds_self_of_lt hi)
  | false =>
    simp only [Bool.false_eq_true, if_false]
    have hwrite : writeSlot (first + k + 1) acc m = .ok () m := writeSlot_self h
    rw [Action.bind_ok hwrite, Action.bind_apply, concatStep_combine h hget htext]
    simp only [Action.bind_apply]
    cases combine run v acc m with
    | error e m' => rfl
    | ok w m' =>
      dsimp only
      cases hwritten : writeSlot (first + k) w m' with
      | error e m'' => rfl
      | ok u m'' =>
        obtain ⟨hk, rfl⟩ := writeSlot_eq_ok.1 hwritten
        exact ih k (by omega) (by omega) (Array.getElem?_setIfInBounds_self_of_lt hk)

/-- Besides calling handlers an action only writes registers of a block. It fails as a handler fails, or where a
pair has none, or where the block is not on the stack. -/
structure KeepsToBlock (run : Run) (first n : Nat) {α : Type} (x : Action α) : Prop where
  writes : ∀ P : Machine → Prop,
    (∀ m i v, first ≤ i → i < first + n → P m → P (m.withStack (m.running.stack.setIfInBounds i v))) →
    (∀ m h args, P m → P (Outcome.state (callHandler run h args m))) → ∀ m, P m → P (Outcome.state (x m))
  fails : ∀ m e m', x m = .error e m' → (∃ m₁ h args, callHandler run h args m₁ = .error e m') ∨
    (∃ v w : Value, (v.isText && w.isText) = false ∧ m'.handler? v .concat = none ∧
      m'.handler? w .concat = none ∧
        (raise (.operand .concatenate (if v.isText then w else v).type) : Action Unit) m' = .error e m') ∨
    e = .crash ∧ m'.running.stack.size < first + n

namespace KeepsToBlock

variable {α β : Type}

theorem bind {x : Action α} {f : α → Action β} (hx : KeepsToBlock run first n x)
    (hf : ∀ a, KeepsToBlock run first n (f a)) : KeepsToBlock run first n (x >>= f) where
  writes P hwrite hcall m hm := by
    have h := hx.writes P hwrite hcall m hm
    rw [Action.bind_apply]
    cases hr : x m with
    | ok a m' =>
      rw [hr] at h
      exact (hf a).writes P hwrite hcall m' h
    | error e m' =>
      rw [hr] at h
      exact h
  fails m e m' h := by
    rw [Action.bind_apply] at h
    cases hr : x m with
    | ok a m₁ =>
      rw [hr] at h
      exact (hf a).fails m₁ e m' h
    | error e₁ m₁ =>
      rw [hr] at h
      obtain ⟨rfl, rfl⟩ := EStateM.Result.error.inj h
      exact hx.fails m _ _ hr

protected theorem readSlot (hi : i < first + n) : KeepsToBlock run first n (readSlot i) where
  writes P _ _ m hm := by
    unfold readSlot
    split <;> exact hm
  fails m e m' h := by
    unfold readSlot at h
    split at h
    · cases h
    · obtain ⟨rfl, rfl⟩ := EStateM.Result.error.inj h
      exact .inr (.inr ⟨rfl, by omega⟩)

protected theorem writeSlot (hfirst : first ≤ i) (hi : i < first + n) (v : Value) :
    KeepsToBlock run first n (writeSlot i v) where
  writes P hwrite _ m hm := by
    unfold writeSlot
    split
    · exact hwrite m i v hfirst hi hm
    · exact hm
  fails m e m' h := by
    unfold writeSlot at h
    split at h
    · cases h
    · obtain ⟨rfl, rfl⟩ := EStateM.Result.error.inj h
      exact .inr (.inr ⟨rfl, by omega⟩)

protected theorem callHandler (h : Value) (args : List Value) : KeepsToBlock run first n (callHandler run h args) where
  writes _ _ hcall m hm := hcall m h args hm
  fails m _ _ hr := .inl ⟨m, h, args, hr⟩

/-- A pair is not both text where it is combined. -/
protected theorem combine (htext : (v.isText && w.isText) = false) :
    KeepsToBlock run first n (combine run v w) := by
  have hcall (h : Value) : KeepsToBlock run first n (callHandler run h [v, w]) := .callHandler h [v, w]
  constructor
  · intro P hwrite hP m hm
    simp only [combine, Action.bind_ok (Action.view_apply _ _)]
    cases m.handler? v .concat with
    | some h => exact (hcall h).writes P hwrite hP m hm
    | none =>
      simp only [Action.bind_ok (Action.view_apply _ _)]
      cases m.handler? w .concat with
      | some h => exact (hcall h).writes P hwrite hP m hm
      | none => exact hm
  · intro m e m' h
    simp only [combine, Action.bind_ok (Action.view_apply _ _)] at h
    cases hv : m.handler? v .concat with
    | some f =>
      rw [hv] at h
      exact (hcall f).fails m e m' h
    | none =>
      simp only [hv, Action.bind_ok (Action.view_apply _ _)] at h
      cases hw : m.handler? w .concat with
      | some f =>
        rw [hw] at h
        exact (hcall f).fails m e m' h
      | none =>
        rw [hw] at h
        obtain ⟨rfl, rfl⟩ := EStateM.Result.error.inj h
        exact .inr (.inl ⟨v, w, htext, hv, hw, rfl⟩)

protected theorem foldPairs (hk : k < n) (acc : Value) : KeepsToBlock run first n (foldPairs run first k acc) := by
  induction k generalizing acc with
  | zero => exact .writeSlot le_rfl (by omega) acc
  | succ k ih =>
    refine .bind (.readSlot (by omega)) fun v => ?_
    split
    · exact ih (by omega) _
    · next htext =>
      refine .bind (.writeSlot (by omega) (by omega) acc) fun _ => ?_
      refine .bind (.combine (by simpa using htext)) fun w => ?_
      exact .bind (.writeSlot (by omega) (by omega) w) fun _ => ih (by omega) w

end KeepsToBlock

/-- To concatenate a block of registers is to concatenate them one pair at a time from the right. Nothing else
happens than that handlers are called and registers of the block written, and it ends if the handlers do. -/
theorem concat_folds_pairs (run : Run) (first : Nat) {n : Nat} (hn : 2 ≤ n) :
    concatRange run n n (first + n) = concatPairs run first n ∧
      KeepsToBlock run first n (concatRange run n n (first + n)) := by
  obtain ⟨k, rfl⟩ : ∃ k, n = k + 1 + 1 := ⟨n - 2, by omega⟩
  have heq : concatRange run (k + 1 + 1) (k + 1 + 1) (first + (k + 1 + 1)) = concatPairs run first (k + 1 + 1) := by
    funext m
    have hmany : ¬ k + 1 + 1 ≤ 1 := by omega
    cases hlast : m.running.stack[first + (k + 1)]? with
    | some last =>
      have hread : readSlot (first + (k + 1)) m = .ok last m := readSlot_eq_ok.2 ⟨hlast, rfl⟩
      exact (concatRange_eq_foldPairs (by omega) hlast).trans (Action.bind_ok hread).symm
    | none =>
      have hread : readSlot (first + (k + 1)) m = .error .crash m := by
        rw [readSlot, dif_neg (Nat.not_lt.2 (Array.getElem?_eq_none_iff.1 hlast))]
      have hstep : concatStep run (k + 1 + 1) (first + (k + 1 + 1)) m = .error .crash m := by
        rw [concatStep, Action.bind_apply, show readSlot (first + (k + 1 + 1) - 1) m = _ from hread]
      have hpairs : concatPairs run first (k + 1 + 1) m = .error .crash m := by
        rw [concatPairs, Action.bind_apply, show readSlot (first + (k + 1 + 1) - 1) m = _ from hread]
      rw [concatRange, if_neg hmany, Action.bind_apply, hstep, hpairs]
  refine ⟨heq, heq ▸ ?_⟩
  exact .bind (.readSlot (by omega)) fun last => .foldPairs (by omega) last

/-- Two texts are joined, and then there is no handler for the value before them. -/
theorem concat_folds_pairs_bool :
    (concatRange (fun _ => pure ()) 4 4 (1 + 4)
      (Machine.bare.withStack #[.nil, .str "a", .bool true, .ofInt 1, .str "b"])) =
        .error (.runtime (.str "attempt to concatenate a boolean value") none)
          (Machine.bare.withStack #[.nil, .str "a", .bool true, .str "1b", .str "b"]) := by
  rw [(concat_folds_pairs (fun _ => pure ()) 1 (by decide)).1]
  rfl

end LuaMachine
