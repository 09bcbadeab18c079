import LuaMachine.Chunk.Reader
import LuaMachine.Chunk.Writer
import Mathlib.Algebra.Group.Nat.Defs

/-!
Readers against writers, field by field. A reader that reads bytes as a value does so whatever comes behind
them, so readers put one after another read bytes put one after another. Each kind of field reads back as what
was written, in every layout; a list does if its elements do, and if the signed count has room for it.
-/

namespace LuaMachine

namespace Text

@[simp]
theorem length_toBytes (s : String) : (toBytes s).length = s.utf8ByteSize := rfl

@[simp]
theorem ofBytes_toBytes (s : String) : ofBytes (toBytes s) = s := by
  have h : String.fromUTF8? ⟨(toBytes s).toArray⟩ = some s := dif_pos s.isValidUTF8
  simp only [ofBytes, h]

theorem utf8ByteSize_ofList_cons (c : Char) (cs : List Char) :
    (String.ofList (c :: cs)).utf8ByteSize = c.utf8Size + (String.ofList cs).utf8ByteSize := by
  rw [String.ofList_cons, String.utf8ByteSize_append, String.utf8ByteSize_singleton]

theorem utf8Size_ascii : ∀ n < 128, (Char.ofNat n).utf8Size = 1 := by decide

/-- Each byte that is not text becomes three at most, those of the replacement character. -/
theorem utf8ByteSize_lossyChars_le (bytes : List UInt8) :
    (String.ofList (lossyChars bytes)).utf8ByteSize ≤ 3 * bytes.length := by
  have hnil : (String.ofList []).utf8ByteSize = 0 := rfl
  have hreplacement : replacement.utf8Size = 3 := by decide
  have hjoin (head : Nat) (tail : List UInt8) := (join head tail).utf8Size_le_four
  fun_induction lossyChars bytes with
  | case1 => exact Nat.zero_le _
  | case2 b r hb ih =>
    have hascii := utf8Size_ascii b.toNat hb
    rw [utf8ByteSize_ofList_cons, List.length_cons]
    omega
  | _ => grind [utf8ByteSize_ofList_cons]

theorem utf8ByteSize_ofBytes_le (bytes : List UInt8) : (ofBytes bytes).utf8ByteSize ≤ 3 * bytes.length := by
  unfold ofBytes
  split
  · next s hs =>
    have hbytes : s.toByteArray = ⟨bytes.toArray⟩ := by
      unfold String.fromUTF8? at hs
      split at hs
      · cases hs
        rfl
      · cases hs
    have hsize : s.utf8ByteSize = bytes.length := by
      change s.toByteArray.size = _
      rw [hbytes]
      rfl
    omega
  · exact utf8ByteSize_lossyChars_le bytes
end Text

namespace Chunk

variable {α β : Type}

/-- The reader takes these bytes off every input that starts with them, and gives this value. -/
def Reads (read : Reader α) (bytes : List UInt8) (x : α) : Prop :=
  ∀ rest, read (bytes ++ rest) = .ok (x, rest)

theorem Reads.pure (x : α) : Reads (pure x) [] x := fun _ => rfl

theorem Reads.bind {read : Reader α} {next : α → Reader β} {bytes more : List UInt8} {x : α} {y : β}
    (h : Reads read bytes x) (hnext : Reads (next x) more y) : Reads (read >>= next) (bytes ++ more) y := by
  intro rest
  have hstep : (read >>= next) (bytes ++ (more ++ rest)) = next x (more ++ rest) := by
    change (read (bytes ++ (more ++ rest)) >>= fun r => next r.1 r.2) = _
    rw [h]
    rfl
  rw [List.append_assoc, hstep]
  exact hnext rest

/-- The reader at the end of a chain only puts together what was read. -/
theorem Reads.last {read : Reader α} {next : α → Reader β} {bytes : List UInt8} {x : α} {y : β}
    (h : Reads read bytes x) (hnext : next x = Pure.pure y) : Reads (read >>= next) bytes y := by
  have hread := h.bind (hnext ▸ Reads.pure y)
  rwa [List.append_nil] at hread

theorem Reads.map {read : Reader α} {bytes : List UInt8} {x : α} (h : Reads read bytes x) (f : α → β) :
    Reads (f <$> read) bytes (f x) := by
  intro rest
  change (read (bytes ++ rest) >>= fun r => Except.ok (f r.1, r.2)) = _
  rw [h]
  rfl

theorem reads_take (bytes : List UInt8) : Reads (take bytes.length) bytes bytes := by
  intro rest
  have h : splitExact bytes.length (bytes ++ rest) = some (bytes, rest) := splitExact_eq_some_iff.2 ⟨rfl, rfl⟩
  rw [take, h]

theorem reads_byte (b : UInt8) : Reads byte [b] b := fun _ => rfl

/-- Elements written one after another are read by reading as often as there are elements. -/
theorem reads_replicate {read : Reader β} {write : α → List UInt8} {f : α → β} {xs : List α}
    (h : ∀ x ∈ xs, Reads read (write x) (f x)) :
    Reads (replicate read xs.length) (xs.flatMap write) (xs.map f) := by
  induction xs with
  | nil => exact .pure []
  | cons x xs ih =>
    have htail := ih fun y hy => h y (List.mem_cons_of_mem x hy)
    exact (h x List.mem_cons_self).bind (htail.last rfl)

namespace Layout

variable (l : Layout)

@[simp]
theorem length_encode (width n : Nat) : (l.encode width n).length = width := by
  rw [encode, length_order, length_bytesOf]

theorem decode_encode {width n : Nat} (h : n < 256 ^ width) : l.decode (l.encode width n) = n := by
  rw [decode, encode, order_order, ofBytes_bytesOf]
  exact Nat.mod_eq_of_lt h

theorem reads_nat {width n : Nat} (h : n < 256 ^ width) : Reads (l.nat width) (l.encode width n) n := by
  have hread := (reads_take (l.encode width n)).map l.decode
  rwa [length_encode, l.decode_encode h] at hread

theorem reads_word (w : UInt32) : Reads l.word (l.writeWord w) w := by
  have hread := (l.reads_nat (show w.toNat < 256 ^ 4 from w.toNat_lt)).map UInt32.ofNat
  rwa [UInt32.ofNat_toNat] at hread

/-- Counts are plausible only before as many bytes, so they do not read back by themselves. -/
theorem count_writeInt {n : Nat} {rest : List UInt8} (hn : n < 2 ^ 31) (hrest : n ≤ rest.length) :
    l.count (l.writeInt n ++ rest) = .ok (n, rest) := by
  change (l.nat 4 (l.encode 4 n ++ rest) >>= _) = _
  rw [l.reads_nat (n := n) (by omega) rest]
  have hplausible : n < 2147483648 ∧ n ≤ rest.length := ⟨hn, hrest⟩
  change (if n < 2147483648 ∧ n ≤ rest.length then _ else _ : Reader Nat) rest = _
  rw [if_pos hplausible]
  rfl

end Layout

/-- Elements that take a byte each leave as many bytes as their count says, or more. -/
theorem length_le_length_flatMap {write : α → List UInt8} {xs : List α} (h : ∀ x ∈ xs, write x ≠ []) :
    xs.length ≤ (xs.flatMap write).length := by
  induction xs with
  | nil => exact Nat.le_refl _
  | cons x xs ih =>
    have hx := List.length_pos_iff.2 (h x List.mem_cons_self)
    have htail := ih fun y hy => h y (List.mem_cons_of_mem x hy)
    rw [List.flatMap_cons, List.length_append, List.length_cons]
    omega

namespace Layout

variable (l : Layout)

theorem reads_list {read : Reader β} {write : α → List UInt8} {f : α → β} {xs : List α}
    (h : ∀ x ∈ xs, Reads read (write x) (f x)) (hbytes : ∀ x ∈ xs, write x ≠ []) (hlength : xs.length < 2 ^ 31) :
    Reads (l.list read) (l.writeList write xs) (xs.map f) := by
  intro rest
  have hplausible := length_le_length_flatMap hbytes
  have hroom : xs.length ≤ (xs.flatMap write ++ rest).length := by
    rw [List.length_append]
    omega
  rw [writeList, List.append_assoc]
  change (l.count (l.writeInt xs.length ++ (xs.flatMap write ++ rest)) >>= fun r => replicate read r.1 r.2) = _
  rw [l.count_writeInt hlength hroom]
  exact reads_replicate h rest

theorem reads_list_self {read : Reader α} {write : α → List UInt8} {xs : List α}
    (h : ∀ x ∈ xs, Reads read (write x) x) (hbytes : ∀ x ∈ xs, write x ≠ []) (hlength : xs.length < 2 ^ 31) :
    Reads (l.list read) (l.writeList write xs) xs := by
  have hread := l.reads_list (f := id) h hbytes hlength
  rwa [List.map_id] at hread

theorem writeWord_ne_nil (w : UInt32) : l.writeWord w ≠ [] := by
  apply List.ne_nil_of_length_pos
  rw [writeWord, writeInt, length_encode]
  decide

theorem reads_words (ws : Array UInt32) (h : ws.size < 2 ^ 31) :
    Reads (l.list l.word) (l.writeList l.writeWord ws.toList) ws.toList :=
  l.reads_list_self (fun w _ => l.reads_word w) (fun w _ => l.writeWord_ne_nil w) h

theorem sizeWidth_pos : 0 < l.sizeWidth := by
  unfold sizeWidth
  split <;> decide

theorem writeString_ne_nil (s : Option String) : l.writeString s ≠ [] := by
  have hpos := l.sizeWidth_pos
  cases s with
  | none =>
    apply List.ne_nil_of_length_pos
    rw [writeString, length_encode]
    exact hpos
  | some s => simp [writeString]

theorem reads_string?_none : Reads l.string? (l.writeString none) none :=
  (l.reads_nat (Nat.pow_pos (by decide))).last rfl

theorem reads_string?_some {s : String} (h : s.utf8ByteSize + 1 < 256 ^ l.sizeWidth) :
    Reads l.string? (l.writeString (some s)) (some s) := by
  have hsize : Reads (l.nat l.sizeWidth) (l.encode l.sizeWidth (s.utf8ByteSize + 1)) (s.utf8ByteSize + 1) :=
    l.reads_nat h
  have hbytes := reads_take (Text.toBytes s ++ [0])
  rw [List.length_append, Text.length_toBytes] at hbytes
  rw [writeString, List.append_assoc]
  refine hsize.bind ?_
  rw [if_neg (Nat.succ_ne_zero _)]
  refine hbytes.last ?_
  rw [List.dropLast_concat, Text.ofBytes_toBytes]

theorem reads_string {s : String} (h : s.utf8ByteSize + 1 < 256 ^ l.sizeWidth) :
    Reads l.string (l.writeString (some s)) s :=
  (l.reads_string?_some h).last rfl

theorem writeConstant_ne_nil (k : Constant) : l.writeConstant k ≠ [] := by
  cases k <;> exact List.cons_ne_nil _ _

theorem reads_constant {k : Constant} (h : ∀ s, k = .str s → s.utf8ByteSize + 1 < 256 ^ l.sizeWidth) :
    Reads l.constant (l.writeConstant k) k := by
  cases k with
  | nil => exact (reads_byte 0).last rfl
  | bool b =>
    refine (reads_byte 1).bind ((reads_byte (if b then 1 else 0)).last ?_)
    cases b <;> rfl
  | numeral bits =>
    refine (reads_byte 3).bind ((l.reads_nat (show bits.toNat < 256 ^ 8 from bits.toNat_lt)).last ?_)
    rw [UInt64.ofNat_toNat]
  | str s => exact (reads_byte 4).bind ((l.reads_string (h s rfl)).last rfl)

theorem writeLocal_ne_nil (v : LocalVariable) : l.writeLocal v ≠ [] := by
  simp [writeLocal, writeString_ne_nil]

theorem reads_localVariable {v : LocalVariable} (h : v.name.utf8ByteSize + 1 < 256 ^ l.sizeWidth) :
    Reads l.localVariable (l.writeLocal v) v := by
  rw [writeLocal, List.append_assoc]
  exact (l.reads_string h).bind ((l.reads_word v.startPc).bind ((l.reads_word v.endPc).last rfl))

end Layout

/-- From inputs up to a size the reader leaves no more than it got, and what it gives has the property. -/
def Gives (size : Nat) (read : Reader α) (P : α → Prop) : Prop :=
  ∀ s x rest, s.length ≤ size → read s = .ok (x, rest) → rest.length ≤ size ∧ P x

section Gives

variable {size : Nat} {read : Reader α} {P : α → Prop} {Q : β → Prop}

theorem Gives.pure {x : α} (h : P x) : Gives size (pure x) P := by
  intro s y rest hs hread
  cases hread
  exact ⟨hs, h⟩

theorem Gives.throw {e : Flaw} : Gives size (throw e : Reader α) P := by
  intro s y rest hs hread
  cases hread

theorem Gives.bind {next : α → Reader β} (h : Gives size read P) (hnext : ∀ x, P x → Gives size (next x) Q) :
    Gives size (read >>= next) Q := by
  intro s y rest hs hread
  change (read s >>= fun r => next r.1 r.2) = _ at hread
  cases hx : read s with
  | error e => rw [hx] at hread; cases hread
  | ok r =>
    rw [hx] at hread
    obtain ⟨hrest, hP⟩ := h s _ _ hs hx
    exact hnext r.1 hP r.2 y rest hrest hread

theorem Gives.map {f : α → β} (h : Gives size read P) (hf : ∀ x, P x → Q (f x)) : Gives size (f <$> read) Q := by
  intro s y rest hs hread
  change (read s >>= fun r => Except.ok (f r.1, r.2)) = _ at hread
  cases hx : read s with
  | error e => rw [hx] at hread; cases hread
  | ok r =>
    rw [hx] at hread
    obtain ⟨hrest, hP⟩ := h s _ _ hs hx
    cases hread
    exact ⟨hrest, hf _ hP⟩

theorem Gives.mono {P' : α → Prop} (h : Gives size read P) (hP : ∀ x, P x → P' x) : Gives size read P' :=
  fun s x rest hs hread => (h s x rest hs hread).imp_right (hP x)

theorem gives_take (n : Nat) : Gives size (take n) fun bytes => bytes.length ≤ size := by
  intro s bytes rest hs hread
  unfold take at hread
  split at hread
  · next r hsplit =>
    cases hread
    obtain ⟨rfl, -⟩ := splitExact_eq_some_iff.1 hsplit
    rw [List.length_append] at hs
    omega
  · cases hread

theorem gives_byte : Gives size byte fun _ => True := by
  intro s b rest hs hread
  cases s with
  | nil => cases hread
  | cons b' s =>
    cases hread
    exact ⟨Nat.le_of_succ_le hs, trivial⟩

theorem gives_replicate (h : Gives size read P) (n : Nat) :
    Gives size (replicate read n) fun xs => xs.length = n ∧ ∀ x ∈ xs, P x := by
  induction n with
  | zero => exact .pure ⟨rfl, nofun⟩
  | succ n ih =>
    refine h.bind fun x hx => ih.bind fun xs hxs => .pure ⟨?_, ?_⟩
    · rw [List.length_cons, hxs.1]
    · exact List.forall_mem_cons.2 ⟨hx, hxs.2⟩

namespace Layout

variable (l : Layout)

theorem gives_nat (width : Nat) : Gives size (l.nat width) fun _ => True :=
  (gives_take width).map fun _ _ => trivial

theorem gives_word : Gives size l.word fun _ => True := (l.gives_nat 4).map fun _ _ => trivial

theorem gives_count : Gives size l.count (· < 2 ^ 31) := by
  refine (l.gives_nat 4).bind fun n _ => ?_
  intro s x rest hs hread
  change (if n < 2147483648 ∧ n ≤ s.length then Pure.pure n else _ : Reader Nat) s = _ at hread
  split at hread
  · next h =>
    cases hread
    exact ⟨hs, h.1⟩
  · cases hread

theorem gives_list (h : Gives size read P) :
    Gives size (l.list read) fun xs => xs.length < 2 ^ 31 ∧ ∀ x ∈ xs, P x :=
  l.gives_count.bind fun n hn => (gives_replicate h n).mono fun _ hxs => ⟨hxs.1 ▸ hn, hxs.2⟩

theorem gives_string? : Gives size l.string? fun s? => ∀ s ∈ s?, s.utf8ByteSize ≤ 3 * size := by
  refine (l.gives_nat _).bind fun n _ => ?_
  split
  · exact .pure nofun
  · refine (gives_take n).bind fun bytes hbytes => .pure fun s hs => ?_
    obtain rfl := Option.some.inj hs
    have hsize := Text.utf8ByteSize_ofBytes_le bytes.dropLast
    rw [List.length_dropLast] at hsize
    omega

theorem gives_string : Gives size l.string fun s => s.utf8ByteSize ≤ 3 * size := by
  refine l.gives_string?.bind fun s? hs? => .pure ?_
  cases s? with
  | none => exact Nat.zero_le _
  | some s => exact hs? s rfl

theorem gives_constant : Gives size l.constant fun k => ∀ s, k = .str s → s.utf8ByteSize ≤ 3 * size := by
  refine gives_byte.bind fun tag _ => ?_
  split
  · exact .pure nofun
  split
  · exact gives_byte.bind fun b _ => .pure nofun
  split
  · exact (l.gives_nat 8).bind fun bits _ => .pure nofun
  split
  · exact l.gives_string.bind fun s hs => .pure fun t ht => Constant.str.inj ht ▸ hs
  · exact .throw

theorem gives_localVariable : Gives size l.localVariable fun v => v.name.utf8ByteSize ≤ 3 * size :=
  l.gives_string.bind fun _ hname => l.gives_word.bind fun _ _ => l.gives_word.bind fun _ _ => .pure hname

end Layout

end Gives

end Chunk

end LuaMachine
