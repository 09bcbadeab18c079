import LuaMachine.Proofs.ChunkPrefixes
import LuaMachine.Proofs.ChunkRoundTrip

/-!
Bounds on what an input can hold. Whatever the bytes are, and whatever sizes and counts they claim, what loads
from them nests no deeper than chunks may, has no more parts in all than there are bytes, and has no texts but
those that stand in them.
-/

namespace LuaMachine

/-- The text is that of bytes which stand in the input one behind the other. -/
def Chunk.StandsIn (bytes : List UInt8) (s : String) : Prop := ∃ piece, piece <:+: bytes ∧ s = Text.ofBytes piece

namespace Prototype

mutual

/-- How many prototypes there are in a tree, and words, constants, lines, local variables and upvalue names in
all of them. -/
def partCount : Prototype → Nat
  | ⟨_, _, _, _, _, _, _, _, code, ks, children, lines, locals, names⟩ =>
    1 + code.size + ks.size + partCountAll children + lines.size + locals.length + names.length

def partCountAll : List Prototype → Nat
  | [] => 0
  | p :: ps => partCount p + partCountAll ps

end

theorem partCountAll_eq_sum (ps : List Prototype) : partCountAll ps = (ps.map partCount).sum := by
  induction ps with
  | nil => rfl
  | cons p ps ih => rw [partCountAll, List.map_cons, List.sum_cons, ih]

/-- The texts of a prototype stand in the input, but for the source of a main function that has none. -/
structure TextsStandIn (bytes : List UInt8) (p : Prototype) : Prop where
  source : p.source = Chunk.unknownSource ∨ Chunk.StandsIn bytes p.source
  constants : ∀ s, .str s ∈ p.constants → Chunk.StandsIn bytes s
  locals : ∀ v ∈ p.locals, Chunk.StandsIn bytes v.name
  upvalueNames : ∀ s ∈ p.upvalueNames, Chunk.StandsIn bytes s

end Prototype

namespace Chunk

variable {α β : Type} {whole : List UInt8}

theorem standsIn_empty : StandsIn whole "" := ⟨[], List.nil_infix, rfl⟩

/-- From what is left of the whole input the reader takes so many bytes at least for what it gives, which has the
property, and leaves the rest. -/
def Takes (whole : List UInt8) (read : Reader α) (size : α → Nat) (P : α → Prop) : Prop :=
  ∀ s x rest, s <:+ whole → read s = .ok (x, rest) → rest <:+ whole ∧ size x + rest.length ≤ s.length ∧ P x

namespace Takes

variable {read : Reader α} {size : α → Nat} {P : α → Prop}

theorem pure {x : α} (hsize : size x = 0) (h : P x) : Takes whole (pure x) size P := by
  intro s y rest hs hread
  cases hread
  exact ⟨hs, by omega, h⟩

theorem throw {e : Flaw} : Takes whole (throw e : Reader α) size P := by
  intro s y rest hs hread
  cases hread

/-- The reader that goes on has to take what has not been taken yet. -/
theorem bind {next : α → Reader β} {size' : β → Nat} {Q : β → Prop} (h : Takes whole read size P)
    (hnext : ∀ x, P x → Takes whole (next x) (fun y => size' y - size x) Q) :
    Takes whole (read >>= next) size' Q := by
  intro s y rest hs hread
  cases hx : read s with
  | error e => rw [bind_of_error hx] at hread; cases hread
  | ok r =>
    rw [bind_of_ok hx] at hread
    obtain ⟨hmid, hsize, hP⟩ := h s _ _ hs hx
    obtain ⟨hrest, hsize', hQ⟩ := hnext r.1 hP r.2 y rest hmid hread
    dsimp only at hsize'
    exact ⟨hrest, by omega, hQ⟩

theorem map {f : α → β} {size' : β → Nat} {Q : β → Prop} (h : Takes whole read size P)
    (hsize : ∀ x, size' (f x) ≤ size x) (hP : ∀ x, P x → Q (f x)) : Takes whole (f <$> read) size' Q := by
  have hpure (x : α) (hx : P x) : Takes whole (Pure.pure (f x)) (fun y => size' y - size x) Q :=
    .pure (Nat.sub_eq_zero_of_le (hsize x)) (hP x hx)
  exact h.bind hpure

theorem mono {size' : α → Nat} (h : Takes whole read size P) (hsize : ∀ x, size' x ≤ size x) :
    Takes whole read size' P := by
  intro s x rest hs hread
  obtain ⟨hrest, hx, hP⟩ := h s x rest hs hread
  exact ⟨hrest, (Nat.add_le_add_right (hsize x) _).trans hx, hP⟩

end Takes

theorem takes_take (n : Nat) : Takes whole (take n) (fun _ => n) fun bytes => bytes <:+: whole := by
  intro s bytes rest hs hread
  unfold take at hread
  split at hread
  · next r hsplit =>
    cases hread
    obtain ⟨rfl, hlength⟩ := splitExact_eq_some_iff.1 hsplit
    refine ⟨(List.suffix_append bytes rest).trans hs, ?_, (List.prefix_append bytes rest).isInfix.trans hs.isInfix⟩
    rw [List.length_append, hlength]
  · cases hread

theorem takes_byte : Takes whole byte (fun _ => 1) fun _ => True := by
  intro s b rest hs hread
  cases s with
  | nil => cases hread
  | cons b' s =>
    cases hread
    exact ⟨(List.suffix_cons b rest).trans hs, by rw [List.length_cons, Nat.add_comm], trivial⟩

theorem takes_replicate {read : Reader α} {size : α → Nat} {P : α → Prop} (h : Takes whole read size P) (n : Nat) :
    Takes whole (replicate read n) (fun xs => (xs.map size).sum) fun xs => ∀ x ∈ xs, P x := by
  induction n with
  | zero => exact .pure rfl nofun
  | succ n ih =>
    refine h.bind fun x hx => ?_
    refine ih.bind fun xs hxs => .pure ?_ (List.forall_mem_cons.2 ⟨hx, hxs⟩)
    rw [List.map_cons, List.sum_cons]
    omega

/-- A test that lets the reader go on or throws. -/
theorem takes_check {c : Prop} [Decidable c] {e : Flaw} {next : PUnit → Reader α} {size : α → Nat} {P : α → Prop}
    (h : Takes whole (next ⟨⟩) size P) : Takes whole (if c then do let r ← throw e; next r else next ⟨⟩) size P := by
  split
  · have hthrow : Takes whole (throw e : Reader PUnit) (fun _ => 0) fun _ => False := .throw
    exact hthrow.bind fun _ hfalse => hfalse.elim
  · exact h

namespace Layout

variable (l : Layout)

theorem takes_nat {width : Nat} : Takes whole (l.nat width) (fun _ => width) fun _ => True :=
  (takes_take width).map (fun _ => le_rfl) fun _ _ => trivial

theorem takes_word : Takes whole l.word (fun _ => 1) fun _ => True :=
  l.takes_nat.map (fun _ => by decide) fun _ _ => trivial

theorem takes_count : Takes whole l.count (fun _ => 0) fun _ => True := by
  rw [count_eq]
  refine l.takes_nat.bind fun n _ => ?_
  intro s x rest hs hread
  unfold checkCount at hread
  split at hread
  · cases hread
    exact ⟨hs, by rw [Nat.zero_sub, Nat.zero_add], trivial⟩
  · cases hread

theorem takes_list {read : Reader α} {size : α → Nat} {P : α → Prop} (h : Takes whole read size P) :
    Takes whole (l.list read) (fun xs => (xs.map size).sum) fun xs => ∀ x ∈ xs, P x :=
  l.takes_count.bind fun n _ => takes_replicate h n

/-- A list whose elements take a byte each takes as many bytes as it is long. -/
theorem takes_list_one {read : Reader α} {P : α → Prop} (h : Takes whole read (fun _ => 1) P) :
    Takes whole (l.list read) List.length fun xs => ∀ x ∈ xs, P x := by
  have hlist := l.takes_list h
  simpa using hlist

theorem takes_string? : Takes whole l.string? (fun _ => 1) fun s => ∀ t ∈ s, StandsIn whole t := by
  refine l.takes_nat.bind fun n _ => ?_
  have hwidth : 1 - l.sizeWidth = 0 := Nat.sub_eq_zero_of_le l.sizeWidth_pos
  split
  · exact .pure hwidth nofun
  · refine (takes_take n).bind fun bytes hbytes => .pure ?_ fun t ht => ?_
    · rw [hwidth, Nat.zero_sub]
    · obtain rfl := Option.some.inj ht
      exact ⟨bytes.dropLast, (List.dropLast_prefix bytes).isInfix.trans hbytes, rfl⟩

theorem takes_string : Takes whole l.string (fun _ => 1) (StandsIn whole) := by
  refine l.takes_string?.bind fun s hs => .pure rfl ?_
  cases s with
  | none => exact standsIn_empty
  | some s => exact hs s rfl

theorem takes_constant : Takes whole l.constant (fun _ => 1) fun k => ∀ s, k = .str s → StandsIn whole s := by
  refine takes_byte.bind fun tag _ => ?_
  split
  · exact .pure rfl nofun
  split
  · exact takes_byte.bind fun b _ => .pure rfl nofun
  split
  · exact l.takes_nat.bind fun bits _ => .pure rfl nofun
  split
  · exact l.takes_string.bind fun s hs => .pure rfl fun t ht => Constant.str.inj ht ▸ hs
  · exact .throw

theorem takes_localVariable : Takes whole l.localVariable (fun _ => 1) fun v => StandsIn whole v.name :=
  l.takes_string.bind fun _ hname => l.takes_word.bind fun _ _ => l.takes_word.bind fun _ _ => .pure rfl hname

theorem takes_function (depth : Nat) {inherited : String} (h : inherited = unknownSource ∨ StandsIn whole inherited) :
    Takes whole (l.function depth inherited) Prototype.partCount
      fun p => ∀ q, p.Contains q → q.TextsStandIn whole := by
  induction depth generalizing inherited with
  | zero => exact .throw
  | succ depth ih =>
    refine l.takes_string?.bind fun own hown => ?_
    have hsource : own.getD inherited = unknownSource ∨ StandsIn whole (own.getD inherited) := by
      cases own with
      | none => exact h
      | some s => exact .inr (hown s rfl)
    refine l.takes_word.bind fun line _ => l.takes_word.bind fun last _ => takes_byte.bind fun nup _ =>
      takes_byte.bind fun npar _ => takes_byte.bind fun va _ => takes_byte.bind fun max _ =>
      (l.takes_list_one l.takes_word).bind fun code _ =>
      (l.takes_list_one l.takes_constant).bind fun ks hks => (l.takes_list (ih hsource)).bind fun children hchildren =>
      (l.takes_list_one l.takes_word).bind fun lines _ =>
      (l.takes_list_one l.takes_localVariable).bind fun locals hlocals =>
      (l.takes_list_one l.takes_string).bind fun names hnames => .pure ?_ ?_
    · simp only [Prototype.partCount, Prototype.partCountAll_eq_sum, List.size_toArray]
      omega
    · refine Prototype.forall_contains_iff.2 ⟨?_, hchildren⟩
      exact ⟨hsource, fun s hs => hks _ (List.mem_toArray.1 hs) s rfl, hlocals, hnames⟩

end Layout

theorem takes_header : Takes whole readHeader (fun _ => 0) fun _ => True := by
  refine (takes_take 12).bind fun h _ => ?_
  split
  · exact takes_check <| takes_check <| takes_check <| takes_check <| takes_check <| takes_check <| takes_check <|
      .pure rfl trivial
  · exact .throw

theorem takes_readMain :
    Takes whole readMain Prototype.partCount fun p => ∀ q, p.Contains q → q.TextsStandIn whole := by
  have hfunction (l : Layout) : Takes whole (l.function maxDepth unknownSource) Prototype.partCount
      fun p => ∀ q, p.Contains q → q.TextsStandIn whole := l.takes_function maxDepth (.inl rfl)
  exact takes_header.bind fun l _ => (hfunction l).mono fun p => Nat.sub_le _ _

/-! ### Sizes and counts that the input does not bear out -/

theorem ofBytes_lt (bytes : List UInt8) : ofBytes bytes < 256 ^ bytes.length := by
  induction bytes with
  | nil => exact Nat.one_pos
  | cons b bytes ih =>
    have hb : b.toNat < 256 := b.toNat_lt
    rw [ofBytes, List.length_cons, Nat.pow_succ]
    omega

namespace Layout

variable (l : Layout)

theorem decode_lt (bytes : List UInt8) : l.decode bytes < 256 ^ bytes.length := by
  have hlt := ofBytes_lt (l.order bytes)
  rwa [length_order] at hlt

/-- The number in a field of four bytes, in two's complement. -/
def signed (field : List UInt8) : Int := (l.decode field : Int).bmod 4294967296

theorem signed_eq {field : List UInt8} (h : field.length = 4) :
    l.signed field =
      if l.decode field < 2147483648 then (l.decode field : Int) else (l.decode field : Int) - 4294967296 := by
  have hpow : 256 ^ 4 = 4294967296 := by norm_num
  have hlt := l.decode_lt field
  rw [h, hpow] at hlt
  unfold signed
  simp only [Int.bmod_def]
  omega

theorem nat_append {width : Nat} {field : List UInt8} (h : field.length = width) (rest : List UInt8) :
    l.nat width (field ++ rest) = .ok (l.decode field, rest) := by
  subst h
  exact (reads_take field).map l.decode rest

theorem count_refuses {field rest : List UInt8} (h : field.length = 4)
    (hout : l.signed field < 0 ∨ rest.length < l.signed field) :
    l.count (field ++ rest) = .error (.count (l.signed field)) := by
  have hsigned := l.signed_eq h
  have hnot : ¬ (l.decode field < 2147483648 ∧ l.decode field ≤ rest.length) := by
    rintro ⟨hpositive, hroom⟩
    rw [if_pos hpositive] at hsigned
    omega
  rw [count_eq, bind_of_ok (l.nat_append h rest), checkCount, if_neg hnot, hsigned]

theorem string?_refuses {field rest : List UInt8} (h : field.length = l.sizeWidth)
    (hout : rest.length < l.decode field) : l.string? (field ++ rest) = .error .truncated := by
  have hnone : splitExact (l.decode field) rest = none := by
    rw [Option.eq_none_iff_forall_not_mem]
    rintro ⟨front, back⟩ hsplit
    obtain ⟨rfl, hlength⟩ := splitExact_eq_some_iff.1 hsplit
    rw [List.length_append] at hout
    omega
  have htake : take (l.decode field) rest = .error .truncated := by rw [take, hnone]
  rw [string?, bind_of_ok (l.nat_append h rest), if_neg (by omega)]
  exact bind_of_error htake

end Layout

/-- Every input loads or is refused, and what loads is bounded by it: no more than 200 functions nest in one
another, the tree has no more parts than the input has bytes, and its texts stand there. A count that is
negative or greater than the number of bytes left is refused, and so is a string that would not end in the input,
whatever its size. -/
theorem load_bounded :
    (∀ bytes, (∃ flaw, load bytes = .error flaw) ∨
      ∃ p, load bytes = .ok p ∧ p.NestsWithin 200 ∧ p.partCount ≤ bytes.length ∧
        ∀ q, p.Contains q → q.TextsStandIn bytes) ∧
    (∀ (l : Layout) (field rest : List UInt8), field.length = 4 →
      (l.signed field < 0 ∨ rest.length < l.signed field) →
      l.count (field ++ rest) = .error (.count (l.signed field))) ∧
    ∀ (l : Layout) (field rest : List UInt8), field.length = l.sizeWidth → rest.length < l.decode field →
      l.string? (field ++ rest) = .error .truncated := by
  refine ⟨fun bytes => ?_, fun l field rest => l.count_refuses, fun l field rest => l.string?_refuses⟩
  cases hload : load bytes with
  | error flaw => exact .inl ⟨flaw, rfl⟩
  | ok p =>
    obtain ⟨-, hsize, htexts⟩ := takes_readMain bytes p [] (List.suffix_refl bytes) (load_eq_ok.1 hload)
    exact .inr ⟨p, rfl, (loaded_of_load hload).nests, hsize, htexts⟩

/-- A chunk that loads, a count of minus one, and the greatest size of all. -/
theorem load_bounded_leaflet :
    (leaflet.NestsWithin 200 ∧ leaflet.partCount = 6 ∧
      6 ≤ (Layout.write ⟨false, false⟩ false leaflet).length) ∧
    Layout.count ⟨false, false⟩ [0xff, 0xff, 0xff, 0xff, 0] = .error (.count (-1)) ∧
    Layout.string? .standard (List.replicate 8 0xff ++ [0]) = .error .truncated := by
  have hload : load (Layout.write ⟨false, false⟩ false leaflet) = .ok leaflet := rfl
  refine ⟨?_, ?_, ?_⟩
  · obtain ⟨flaw, herror⟩ | ⟨p, hp, hnests, hsize, -⟩ := load_bounded.1 (Layout.write ⟨false, false⟩ false leaflet)
    · rw [hload] at herror
      cases herror
    · rw [hload] at hp
      cases hp
      have hcount : leaflet.partCount = 6 := by decide
      exact ⟨hnests, hcount, hcount ▸ hsize⟩
  · have hsigned : Layout.signed ⟨false, false⟩ [0xff, 0xff, 0xff, 0xff] = -1 := by decide
    have hcount := load_bounded.2.1 ⟨false, false⟩ [0xff, 0xff, 0xff, 0xff] [0] rfl (.inl (by rw [hsigned]; decide))
    rwa [hsigned] at hcount
  · exact load_bounded.2.2 .standard (List.replicate 8 0xff) [0] rfl (by decide)

end Chunk

end LuaMachine
