import LuaMachine.Chunk.Reader
import LuaMachine.Chunk.Writer

/-!
Chunks as beginnings of longer inputs. With more bytes behind its input a reader reads what it read before, and
leaves the bytes that have come; what it found wrong is still wrong, unless bytes were missing. So no chunk is
the beginning of another one.
-/

namespace LuaMachine.Chunk

variable {α β : Type}

/-- The flaws that more bytes may mend. -/
inductive Flaw.Shortage : Flaw → Prop
  | truncated : Shortage .truncated
  | count (n : Nat) : Shortage (.count n)

section Bind

variable {read : Reader α} {next : α → Reader β} {s rest : List UInt8}

theorem bind_of_ok {x : α} (h : read s = .ok (x, rest)) : (read >>= next) s = next x rest := by
  change (read s >>= fun r => next r.1 r.2) = _
  rw [h]
  rfl

theorem bind_of_error {e : Flaw} (h : read s = .error e) : (read >>= next) s = .error e := by
  change (read s >>= fun r => next r.1 r.2) = _
  rw [h]
  rfl

end Bind

/-- More bytes behind the input do not change what is read from it, and mend no flaw but a shortage. -/
structure Stable (read : Reader α) : Prop where
  keeps {s rest : List UInt8} {x : α} (h : read s = .ok (x, rest)) (more : List UInt8) :
    read (s ++ more) = .ok (x, rest ++ more)
  refuses {s : List UInt8} {e : Flaw} (h : read s = .error e) (hlasting : ¬ e.Shortage) (more : List UInt8) :
    read (s ++ more) = .error e

namespace Stable

theorem pure (x : α) : Stable (pure x) where
  keeps h more := by cases h; rfl
  refuses h := by cases h

theorem throw (e : Flaw) : Stable (throw e : Reader α) where
  keeps h := by cases h
  refuses h _ more := by cases h; rfl

theorem bind {read : Reader α} {next : α → Reader β} (h : Stable read) (hnext : ∀ x, Stable (next x)) :
    Stable (read >>= next) where
  keeps {s rest y} hread more := by
    cases hx : read s with
    | error e => rw [bind_of_error hx] at hread; cases hread
    | ok r =>
      rw [bind_of_ok hx] at hread
      rw [bind_of_ok (h.keeps hx more)]
      exact (hnext r.1).keeps hread more
  refuses {s e} hread hlasting more := by
    cases hx : read s with
    | error e' =>
      rw [bind_of_error hx] at hread
      cases hread
      exact bind_of_error (h.refuses hx hlasting more)
    | ok r =>
      rw [bind_of_ok hx] at hread
      rw [bind_of_ok (h.keeps hx more)]
      exact (hnext r.1).refuses hread hlasting more

theorem map {read : Reader α} (h : Stable read) (f : α → β) : Stable (f <$> read) := by
  have heq : f <$> read = read >>= fun x => Pure.pure (f x) := rfl
  rw [heq]
  exact h.bind fun x => .pure (f x)

end Stable

theorem stable_take (n : Nat) : Stable (take n) where
  keeps {s rest bytes} h more := by
    unfold take at h
    split at h
    · next r hsplit =>
      cases h
      obtain ⟨rfl, hlength⟩ := splitExact_eq_some_iff.1 hsplit
      have hmore : splitExact n (bytes ++ (rest ++ more)) = some (bytes, rest ++ more) :=
        splitExact_eq_some_iff.2 ⟨rfl, hlength⟩
      rw [List.append_assoc, take, hmore]
    · cases h
  refuses {s e} h hlasting more := by
    unfold take at h
    split at h
    · cases h
    · cases h
      exact absurd .truncated hlasting

theorem stable_byte : Stable byte where
  keeps {s rest b} h more := by
    cases s with
    | nil => cases h
    | cons b' s => cases h; rfl
  refuses {s e} h hlasting more := by
    cases s with
    | nil => cases h; exact absurd .truncated hlasting
    | cons b s => cases h

theorem stable_replicate {read : Reader α} (h : Stable read) (n : Nat) : Stable (replicate read n) := by
  induction n with
  | zero => exact .pure []
  | succ n ih => exact h.bind fun x => ih.bind fun xs => .pure (x :: xs)

/-- A test that lets the reader go on or throws. -/
theorem stable_check {c : Prop} [Decidable c] {e : Flaw} {next : PUnit → Reader α} (h : Stable (next ⟨⟩)) :
    Stable (if c then do let r ← throw e; next r else next ⟨⟩) := by
  split
  · exact (Stable.throw e).bind fun _ => h
  · exact h

theorem stable_readHeader : Stable readHeader := by
  refine (stable_take 12).bind fun h => ?_
  split
  · exact stable_check <| stable_check <| stable_check <| stable_check <| stable_check <| stable_check <|
      stable_check <| .pure _
  · exact .throw _

namespace Layout

variable (l : Layout)

theorem stable_nat (width : Nat) : Stable (l.nat width) := (stable_take width).map l.decode

theorem stable_word : Stable l.word := (l.stable_nat 4).map _

/-- What is done with a count, once its number has been read. -/
def checkCount (n : Nat) : Reader Nat := fun s =>
  if n < 2147483648 ∧ n ≤ s.length then .ok (n, s)
  else .error (.count (if n < 2147483648 then n else (n : Int) - 4294967296))

theorem count_eq : l.count = l.nat 4 >>= checkCount := by
  refine congrArg (l.nat 4 >>= ·) (funext fun n => funext fun s => ?_)
  change (if n < 2147483648 ∧ n ≤ s.length then pure n else throw _ : Reader Nat) s = _
  unfold checkCount
  split <;> rfl

/-- A count that was too great for the bytes left need not be so with more bytes; a negative one stays one. -/
theorem stable_checkCount (n : Nat) : Stable (checkCount n) where
  keeps {s rest x} h more := by
    unfold checkCount at h
    split at h
    · next hn =>
      cases h
      exact if_pos ⟨hn.1, by rw [List.length_append]; omega⟩
    · cases h
  refuses {s e} h hlasting more := by
    unfold checkCount at h
    split at h
    · cases h
    · cases h
      by_cases hn : n < 2147483648
      · rw [if_pos hn] at hlasting
        exact absurd (.count n) hlasting
      · exact if_neg fun hmore => hn hmore.1

theorem stable_count : Stable l.count := by
  rw [count_eq]
  exact (l.stable_nat 4).bind stable_checkCount

theorem stable_list {read : Reader α} (h : Stable read) : Stable (l.list read) :=
  l.stable_count.bind fun n => stable_replicate h n

theorem stable_string? : Stable l.string? := by
  refine (l.stable_nat _).bind fun n => ?_
  split
  · exact .pure none
  · exact (stable_take n).bind fun bytes => .pure _

theorem stable_string : Stable l.string := l.stable_string?.bind fun _ => .pure _

theorem stable_constant : Stable l.constant := by
  refine stable_byte.bind fun tag => ?_
  split
  · exact .pure Constant.nil
  split
  · exact stable_byte.bind fun b => .pure _
  split
  · exact (l.stable_nat 8).bind fun bits => .pure _
  split
  · exact l.stable_string.bind fun s => .pure _
  · exact .throw _

theorem stable_localVariable : Stable l.localVariable :=
  l.stable_string.bind fun _ => l.stable_word.bind fun _ => l.stable_word.bind fun _ => .pure _

theorem stable_function (depth : Nat) (parent : String) : Stable (l.function depth parent) := by
  induction depth generalizing parent with
  | zero => exact .throw .tooDeep
  | succ depth ih =>
    exact l.stable_string?.bind fun own => l.stable_word.bind fun line => l.stable_word.bind fun last =>
      stable_byte.bind fun nup => stable_byte.bind fun npar => stable_byte.bind fun va =>
      stable_byte.bind fun max => (l.stable_list l.stable_word).bind fun code =>
      (l.stable_list l.stable_constant).bind fun constants =>
      (l.stable_list (ih (own.getD parent))).bind fun children =>
      (l.stable_list l.stable_word).bind fun lines => (l.stable_list l.stable_localVariable).bind fun locals =>
      (l.stable_list l.stable_string).bind fun names => .pure _

end Layout

/-- The main function behind the header. -/
def readMain : Reader Prototype := do
  let l ← readHeader
  l.function maxDepth unknownSource

theorem stable_readMain : Stable readMain := stable_readHeader.bind fun l => l.stable_function maxDepth unknownSource

section

variable {bytes more : List UInt8} {p : Prototype}

theorem load_eq (bytes : List UInt8) :
    load bytes = readMain bytes >>= fun r => if r.2.isEmpty then .ok r.1 else .error .trailing := by
  cases h : readHeader bytes with
  | error e =>
    have hmain : readMain bytes = .error e := bind_of_error h
    simp only [load, StateT.run, h, hmain]
    rfl
  | ok r =>
    have hmain : readMain bytes = r.1.function maxDepth unknownSource r.2 := bind_of_ok h
    simp only [load, StateT.run, h, hmain]
    rfl

/-- A chunk is read to its end. -/
theorem load_eq_ok : load bytes = .ok p ↔ readMain bytes = .ok (p, []) := by
  rw [load_eq]
  cases readMain bytes with
  | error e => constructor <;> exact fun h => by cases h
  | ok r =>
    obtain ⟨q, rest⟩ := r
    cases rest with
    | nil =>
      constructor
      · intro h; cases h; rfl
      · intro h; cases h; rfl
    | cons b rest => constructor <;> exact fun h => by cases h

theorem load_append (h : load bytes = .ok p) (hmore : more ≠ []) : load (bytes ++ more) = .error .trailing := by
  have hread := stable_readMain.keeps (load_eq_ok.1 h) more
  obtain ⟨b, rest, rfl⟩ := List.exists_cons_of_ne_nil hmore
  rw [load_eq, hread]
  rfl

/-- What is wrong with the beginning of a chunk is that the rest is missing. -/
theorem load_of_append (h : load (bytes ++ more) = .ok p) (hmore : more ≠ []) :
    ∃ flaw, flaw.Shortage ∧ load bytes = .error flaw := by
  have hwhole := load_eq_ok.1 h
  cases hread : readMain bytes with
  | ok r =>
    rw [stable_readMain.keeps hread more] at hwhole
    have hrest : r.2 ++ more = [] := congrArg Prod.snd (Except.ok.inj hwhole)
    exact absurd (List.append_eq_nil_iff.1 hrest).2 hmore
  | error e =>
    refine ⟨e, ?_, ?_⟩
    · by_cases hlasting : e.Shortage
      · exact hlasting
      · rw [stable_readMain.refuses hread hlasting more] at hwhole
        cases hwhole
    · rw [load_eq, hread]
      rfl

end

/-- No chunk is the beginning of another one. Of an input that loads, what is shorter breaks off too early, and
what is longer has bytes behind the end. -/
theorem load_prefix_free {bytes : List UInt8} {p : Prototype} (h : load bytes = .ok p) :
    (∀ shorter, shorter <+: bytes → shorter ≠ bytes → ∃ flaw, flaw.Shortage ∧ load shorter = .error flaw) ∧
      ∀ longer, bytes <+: longer → longer ≠ bytes → load longer = .error .trailing := by
  constructor
  · rintro shorter ⟨more, rfl⟩ hne
    exact load_of_append h fun hnil => hne (by rw [hnil, List.append_nil])
  · rintro longer ⟨more, rfl⟩ hne
    exact load_append h fun hnil => hne (by rw [hnil, List.append_nil])

/-- A function with a nested one from the same source. -/
def leaflet : Prototype :=
  { Prototype.empty "=c" with
    code := #[30]
    constants := #[.str "k", .bool true]
    children := [{ Prototype.empty "=c" with paramCount := 1 }]
    lines := #[7] }

theorem load_prefix_free_leaflet :
    (∃ flaw, flaw.Shortage ∧ load (Layout.write ⟨false, false⟩ false leaflet).dropLast = .error flaw) ∧
      load (Layout.write ⟨false, false⟩ false leaflet ++ [0]) = .error .trailing := by
  have hload : load (Layout.write ⟨false, false⟩ false leaflet) = .ok leaflet := rfl
  obtain ⟨hshorter, hlonger⟩ := load_prefix_free hload
  exact ⟨hshorter _ (List.dropLast_prefix _) (by decide), hlonger _ (List.prefix_append _ _) (by decide)⟩

end LuaMachine.Chunk
