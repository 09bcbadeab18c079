import LuaMachine.Proofs.ChunkFields
import LuaMachine.Proofs.Soundness

/-!
Round trips of prototype trees through binary chunks. A tree that nests no deeper than chunks may, and whose
lists and strings chunks can count, loads from what was written of it, in every layout, as it was but for its
identities; stripped it loses its sources and its debug information. What loads from any bytes is such a tree,
so writing it again loses nothing.
-/

namespace LuaMachine

namespace Prototype

mutual

/-- A tree with a change made to each of its prototypes, the nested ones first. -/
def everywhere (f : Prototype → Prototype) : Prototype → Prototype
  | ⟨id, source, line, last, nup, npar, va, max, code, ks, children, lines, locals, names⟩ =>
    f ⟨id, source, line, last, nup, npar, va, max, code, ks, everywhereAll f children, lines, locals, names⟩

def everywhereAll (f : Prototype → Prototype) : List Prototype → List Prototype
  | [] => []
  | p :: ps => everywhere f p :: everywhereAll f ps

end

theorem everywhereAll_eq_map (f : Prototype → Prototype) (ps : List Prototype) :
    everywhereAll f ps = ps.map (everywhere f) := by
  induction ps with
  | nil => rw [everywhereAll, List.map_nil]
  | cons p ps ih => rw [everywhereAll, List.map_cons, ih]

theorem everywhere_eq (f : Prototype → Prototype) (p : Prototype) :
    p.everywhere f = f { p with children := p.children.map (everywhere f) } := by
  cases p
  rw [everywhere, everywhereAll_eq_map]

/-- The tree before it was given identities. -/
def anonymous (p : Prototype) : Prototype := p.everywhere fun q => { q with id := 0 }

/-- The tree without identities, sources and debug information. -/
def stripped (p : Prototype) : Prototype :=
  p.everywhere fun q =>
    { q with id := 0, source := Chunk.unknownSource, lines := #[], locals := [], upvalueNames := [] }

theorem anonymous_eq (p : Prototype) :
    p.anonymous = { p with id := 0, children := p.children.map anonymous } := by
  rw [anonymous, everywhere_eq]
  rfl

theorem stripped_eq (p : Prototype) :
    p.stripped = { p with
      id := 0, source := Chunk.unknownSource, children := p.children.map stripped, lines := #[], locals := [],
      upvalueNames := [] } := by
  rw [stripped, everywhere_eq]
  rfl

/-- Functions nest at most so deep, the outermost counted. -/
def NestsWithin : Nat → Prototype → Prop
  | 0, _ => False
  | depth + 1, p => ∀ q ∈ p.children, q.NestsWithin depth

theorem NestsWithin.succ {depth : Nat} {p : Prototype} (h : p.NestsWithin depth) : p.NestsWithin (depth + 1) := by
  induction depth generalizing p with
  | zero => exact h.elim
  | succ depth ih => exact fun q hq => ih (h q hq)

theorem NestsWithin.mono {depth depth' : Nat} {p : Prototype} (h : p.NestsWithin depth) (hle : depth ≤ depth') :
    p.NestsWithin depth' :=
  Nat.le_induction h (fun _ _ ih => ih.succ) depth' hle

/-- The lists of a prototype are short enough for signed counts of four bytes. -/
structure HasShortLists (p : Prototype) : Prop where
  code : p.code.size < 2 ^ 31
  constants : p.constants.size < 2 ^ 31
  children : p.children.length < 2 ^ 31
  lines : p.lines.size < 2 ^ 31
  locals : p.locals.length < 2 ^ 31
  upvalueNames : p.upvalueNames.length < 2 ^ 31

/-- The strings of a prototype take fewer bytes than so many, their closing bytes included. -/
structure HasStringsBelow (limit : Nat) (p : Prototype) : Prop where
  source : p.source.utf8ByteSize + 1 < limit
  constants : ∀ s, .str s ∈ p.constants → s.utf8ByteSize + 1 < limit
  locals : ∀ v ∈ p.locals, v.name.utf8ByteSize + 1 < limit
  upvalueNames : ∀ s ∈ p.upvalueNames, s.utf8ByteSize + 1 < limit

theorem contains_iff {p q : Prototype} : p.Contains q ↔ q = p ∨ ∃ r ∈ p.children, r.Contains q := by
  constructor
  · rintro ⟨path, hpath⟩
    cases path with
    | nil =>
      rw [descend?] at hpath
      exact .inl (Option.some.inj hpath).symm
    | cons i path =>
      rw [descend?] at hpath
      obtain ⟨r, hr, hpath⟩ := Option.bind_eq_some_iff.1 hpath
      exact .inr ⟨r, List.mem_of_getElem? hr, path, hpath⟩
  · rintro (rfl | ⟨r, hr, path, hpath⟩)
    · exact contains_self _
    · obtain ⟨i, hi⟩ := List.mem_iff_getElem?.1 hr
      refine ⟨i :: path, ?_⟩
      rw [descend?, hi]
      exact hpath

theorem HasStringsBelow.mono {limit limit' : Nat} {p : Prototype} (h : p.HasStringsBelow limit)
    (hle : limit ≤ limit') : p.HasStringsBelow limit' where
  source := h.source.trans_le hle
  constants s hs := (h.constants s hs).trans_le hle
  locals v hv := (h.locals v hv).trans_le hle
  upvalueNames s hs := (h.upvalueNames s hs).trans_le hle

/-- What holds in all of a tree holds of its root and in all of its subtrees. -/
theorem forall_contains_iff {P : Prototype → Prop} {p : Prototype} :
    (∀ q, p.Contains q → P q) ↔ P p ∧ ∀ r ∈ p.children, ∀ q, r.Contains q → P q := by
  simp only [contains_iff (p := p), or_imp, forall_and, forall_eq]
  grind

end Prototype

namespace Chunk

/-- A prototype tree as a chunk keeps it. -/
def kept (strip : Bool) : Prototype → Prototype := if strip then Prototype.stripped else Prototype.anonymous

theorem reads_header (l : Layout) : Reads readHeader (header l) l := by
  obtain ⟨endian, wide⟩ := l
  cases endian <;> cases wide <;> exact fun _ => rfl

namespace Layout

variable (l : Layout) {strip : Bool}

theorem writeFunctions_eq (parent : String) (ps : List Prototype) :
    l.writeFunctions strip parent ps = ps.flatMap (l.writeFunction strip (some parent)) := by
  induction ps with
  | nil => rw [writeFunctions, List.flatMap_nil]
  | cons p ps ih => rw [writeFunctions, List.flatMap_cons, ih]

/-- The fields of a function in the order in which they are read. -/
theorem writeFunction_eq (parent : Option String) (p : Prototype) :
    l.writeFunction strip parent p =
      l.writeString (if strip || parent == some p.source then none else some p.source) ++
      (l.writeWord p.lineDefined ++ (l.writeWord p.lastLineDefined ++
      ([p.upvalueCount] ++ ([p.paramCount] ++ ([p.varargFlags] ++ ([p.maxStack] ++
      (l.writeList l.writeWord p.code.toList ++ (l.writeList l.writeConstant p.constants.toList ++
      (l.writeList (l.writeFunction strip (some p.source)) p.children ++
      (l.writeList l.writeWord (if strip then #[] else p.lines).toList ++
      (l.writeList l.writeLocal (if strip then [] else p.locals) ++
      l.writeList (fun s => l.writeString (some s)) (if strip then [] else p.upvalueNames)))))))))))) := by
  obtain ⟨id, source, line, last, nup, npar, va, max, code, ks, children, lines, locals, names⟩ := p
  cases strip <;> simp [writeFunction, writeFunctions_eq, writeList, writeWord]

theorem writeFunction_ne_nil (parent : Option String) (p : Prototype) : l.writeFunction strip parent p ≠ [] := by
  rw [writeFunction_eq]
  exact List.append_ne_nil_of_left_ne_nil (l.writeString_ne_nil _) _

/-- The reader passes the source down that the writer leaves out. -/
def Inherits (strip : Bool) (parent : Option String) (inherited : String) : Prop :=
  if strip then inherited = unknownSource else ∀ s ∈ parent, s = inherited

theorem reads_source {parent : Option String} {inherited s : String}
    (hs : s.utf8ByteSize + 1 < 256 ^ l.sizeWidth) (h : Inherits strip parent inherited) :
    ∃ own, Reads l.string? (l.writeString (if strip || parent == some s then none else some s)) own ∧
      own.getD inherited = if strip then unknownSource else s := by
  cases strip with
  | true => exact ⟨none, l.reads_string?_none, h⟩
  | false =>
    by_cases hparent : parent = some s
    · refine ⟨none, ?_, (h s hparent).symm⟩
      simp only [hparent, beq_self_eq_true, Bool.or_true, if_true]
      exact l.reads_string?_none
    · refine ⟨some s, ?_, rfl⟩
      simp only [beq_iff_eq, hparent, Bool.false_or, if_false]
      exact l.reads_string?_some hs

/-- A function reads back with what the chunk keeps of it. -/
theorem reads_function (depth : Nat) {p : Prototype} {parent : Option String} {inherited : String}
    (hdepth : p.NestsWithin depth) (hlists : ∀ q, p.Contains q → q.HasShortLists)
    (hstrings : ∀ q, p.Contains q → q.HasStringsBelow (256 ^ l.sizeWidth)) (h : Inherits strip parent inherited) :
    Reads (l.function depth inherited) (l.writeFunction strip parent p) (kept strip p) := by
  induction depth generalizing p parent inherited with
  | zero => exact hdepth.elim
  | succ depth ih =>
    have hlist := hlists p p.contains_self
    have hstring := hstrings p p.contains_self
    obtain ⟨own, hown, hsource⟩ := l.reads_source hstring.source h
    have hchildren : Reads (l.list (l.function depth (own.getD inherited)))
        (l.writeList (l.writeFunction strip (some p.source)) p.children) (p.children.map (kept strip)) := by
      refine l.reads_list (fun q hq => ?_) (fun q _ => l.writeFunction_ne_nil _ q) hlist.children
      refine ih (hdepth q hq) (fun r hr => hlists r (Prototype.contains_iff.2 (.inr ⟨q, hq, hr⟩)))
        (fun r hr => hstrings r (Prototype.contains_iff.2 (.inr ⟨q, hq, hr⟩))) ?_
      cases strip with
      | true => exact hsource
      | false => exact fun s hs => (Option.some.inj hs).symm.trans hsource.symm
    have hconstants : Reads (l.list l.constant) (l.writeList l.writeConstant p.constants.toList)
        p.constants.toList :=
      l.reads_list_self
        (fun k hk => l.reads_constant fun s hs => hstring.constants s (Array.mem_def.2 (hs ▸ hk)))
        (fun k _ => l.writeConstant_ne_nil k) hlist.constants
    rw [writeFunction_eq]
    refine hown.bind <| (l.reads_word _).bind <| (l.reads_word _).bind <| (reads_byte _).bind <|
      (reads_byte _).bind <| (reads_byte _).bind <| (reads_byte _).bind <| (l.reads_words _ hlist.code).bind <|
      hconstants.bind <| hchildren.bind ?_
    cases strip with
    | true =>
      -- Stripped, the three lists of debug information are written as empty ones.
      have hnone {α : Type} {read : Reader α} {put : α → List UInt8} :
          Reads (l.list read) (l.writeList put []) [] := l.reads_list_self nofun nofun (Nat.two_pow_pos 31)
      refine (l.reads_words #[] (by decide)).bind <| hnone.bind <| hnone.last ?_
      rw [hsource]
      simp only [kept, if_true, p.stripped_eq]
    | false =>
      have hlocals := l.reads_list_self (fun v hv => l.reads_localVariable (hstring.locals v hv))
        (fun v _ => l.writeLocal_ne_nil v) hlist.locals
      have hnames := l.reads_list_self (fun s hs => l.reads_string (hstring.upvalueNames s hs))
        (fun s _ => l.writeString_ne_nil (some s)) hlist.upvalueNames
      refine (l.reads_words p.lines hlist.lines).bind <| hlocals.bind <| hnames.last ?_
      rw [hsource]
      simp only [kept, Bool.false_eq_true, if_false, p.anonymous_eq]

end Layout

/-- A tree that a chunk has room for loads from what was written of it. -/
theorem load_write (l : Layout) (strip : Bool) {p : Prototype} (hdepth : p.NestsWithin maxDepth)
    (hlists : ∀ q, p.Contains q → q.HasShortLists)
    (hstrings : ∀ q, p.Contains q → q.HasStringsBelow (256 ^ l.sizeWidth)) :
    load (l.write strip p) = .ok (kept strip p) := by
  have hinherits : Layout.Inherits strip none unknownSource := by cases strip <;> simp [Layout.Inherits]
  have hheader := reads_header l (l.writeFunction strip none p)
  have hfunction := l.reads_function maxDepth hdepth hlists hstrings hinherits []
  rw [List.append_nil] at hfunction
  simp only [load, Layout.write, StateT.run, hheader, hfunction, bind, Except.bind]
  rfl

/-- Trees as they load from so many bytes. -/
structure Loaded (size depth : Nat) (p : Prototype) : Prop where
  anonymous : p.anonymous = p
  nests : p.NestsWithin depth
  lists : ∀ q, p.Contains q → q.HasShortLists
  strings : ∀ q, p.Contains q → q.HasStringsBelow (3 * size + 4)

/-- A tree is as loaded if its subtrees are, its root has no identity and its lists and strings are short. -/
theorem Loaded.of_children {size depth : Nat} {p : Prototype} (hid : p.id = 0) (hlists : p.HasShortLists)
    (hstrings : p.HasStringsBelow (3 * size + 4)) (hchildren : ∀ q ∈ p.children, Loaded size depth q) :
    Loaded size (depth + 1) p where
  anonymous := by
    have hmap : p.children.map Prototype.anonymous = p.children := by
      conv_rhs => rw [← List.map_id p.children]
      exact List.map_congr_left fun q hq => (hchildren q hq).anonymous
    cases p
    obtain rfl : _ = 0 := hid
    rw [Prototype.anonymous_eq, hmap]
  nests q hq := (hchildren q hq).nests
  lists := Prototype.forall_contains_iff.2 ⟨hlists, fun q hq => (hchildren q hq).lists⟩
  strings := Prototype.forall_contains_iff.2 ⟨hstrings, fun q hq => (hchildren q hq).strings⟩

namespace Layout

variable (l : Layout) {size : Nat}

theorem gives_function (depth : Nat) {inherited : String} (h : inherited.utf8ByteSize ≤ 3 * size + 2) :
    Gives size (l.function depth inherited) (Loaded size depth) := by
  induction depth generalizing inherited with
  | zero => exact .throw
  | succ depth ih =>
    refine l.gives_string?.bind fun own hown => ?_
    have hsource : (own.getD inherited).utf8ByteSize ≤ 3 * size + 2 := by
      cases own with
      | none => exact h
      | some s => exact (hown s rfl).trans (Nat.le_add_right _ 2)
    refine l.gives_word.bind fun line _ => l.gives_word.bind fun last _ => gives_byte.bind fun nup _ =>
      gives_byte.bind fun npar _ => gives_byte.bind fun va _ => gives_byte.bind fun max _ =>
      (l.gives_list l.gives_word).bind fun code hcode => (l.gives_list l.gives_constant).bind fun ks hks =>
      (l.gives_list (ih hsource)).bind fun children hchildren => (l.gives_list l.gives_word).bind fun lines hlines =>
      (l.gives_list l.gives_localVariable).bind fun locals hlocals =>
      (l.gives_list l.gives_string).bind fun names hnames => .pure ?_
    refine .of_children rfl ⟨hcode.1, hks.1, hchildren.1, hlines.1, hlocals.1, hnames.1⟩ ?_ hchildren.2
    constructor
    · exact Nat.add_lt_add_right (Nat.lt_succ_of_le hsource) 1
    · exact fun s hs => by have := hks.2 _ (List.mem_toArray.1 hs) s rfl; omega
    · exact fun v hv => by have := hlocals.2 v hv; omega
    · exact fun s hs => by have := hnames.2 s hs; omega

end Layout

theorem gives_check {α : Type} {size : Nat} {c : Prop} [Decidable c] {e : Flaw} {next : PUnit → Reader α}
    {P : α → Prop} (h : Gives size (next ⟨⟩) P) :
    Gives size (if c then do let r ← throw e; next r else next ⟨⟩) P := by
  split
  · exact Gives.throw.bind (P := fun _ => False) fun _ hfalse => hfalse.elim
  · exact h

theorem gives_header {size : Nat} : Gives size readHeader fun _ => True := by
  refine (gives_take 12).bind fun h _ => ?_
  split
  · exact gives_check <| gives_check <| gives_check <| gives_check <| gives_check <| gives_check <|
      gives_check <| .pure trivial
  · exact .throw

theorem loaded_of_load {bytes : List UInt8} {p : Prototype} (h : load bytes = .ok p) :
    Loaded bytes.length maxDepth p := by
  change (readHeader bytes >>= fun r => (r.1.function maxDepth unknownSource r.2) >>= fun r =>
    if r.2.isEmpty then .ok r.1 else .error .trailing) = _ at h
  cases hheader : readHeader bytes with
  | error e => rw [hheader] at h; cases h
  | ok r =>
    rw [hheader] at h
    change (r.1.function maxDepth unknownSource r.2 >>= _) = _ at h
    have hrest := (gives_header bytes _ _ le_rfl hheader).1
    cases hfunction : r.1.function maxDepth unknownSource r.2 with
    | error e => rw [hfunction] at h; cases h
    | ok r' =>
      rw [hfunction] at h
      change (if r'.2.isEmpty then _ else _) = _ at h
      split at h
      · cases h
        exact (r.1.gives_function maxDepth (Nat.le_add_left 2 _) _ _ _ hrest hfunction).2
      · cases h

namespace Layout

variable (l : Layout) (strip : Bool)

mutual

theorem writeFunction_anonymous (parent : Option String) :
    ∀ p : Prototype, l.writeFunction strip parent p.anonymous = l.writeFunction strip parent p
  | ⟨id, source, line, last, nup, npar, va, max, code, ks, children, lines, locals, names⟩ => by
    rw [Prototype.anonymous_eq]
    simp only [writeFunction, List.length_map, writeFunctions_anonymous source children]

theorem writeFunctions_anonymous (parent : String) :
    ∀ ps : List Prototype,
      l.writeFunctions strip parent (ps.map Prototype.anonymous) = l.writeFunctions strip parent ps
  | [] => rfl
  | p :: ps => by
    rw [List.map_cons, writeFunctions, writeFunctions, writeFunction_anonymous (some parent) p,
      writeFunctions_anonymous parent ps]

end

/-- A chunk does not depend on identities. -/
theorem write_anonymous (p : Prototype) : l.write strip p.anonymous = l.write strip p := by
  rw [write, write, writeFunction_anonymous]

end Layout

/-- Prototype trees make the round trip through chunks. A tree that nests no deeper than chunks may and whose
lists have fewer than `2 ^ 31` elements loads from its chunk as it was, but for its identities, and from its
stripped chunk without sources and debug information; so it does from chunks in each of the four layouts whose
sizes have room for its strings. What loads from any bytes loads again from its own chunk. -/
theorem round_trips :
    (∀ p : Prototype, p.NestsWithin maxDepth → (∀ q, p.Contains q → q.HasShortLists) →
      ((∀ q, p.Contains q → q.HasStringsBelow (2 ^ 64)) →
        load (dump false p) = .ok p.anonymous ∧ load (dump true p) = .ok p.stripped) ∧
      ∀ l : Layout, (∀ q, p.Contains q → q.HasStringsBelow (256 ^ l.sizeWidth)) →
        load (l.write false p) = .ok p.anonymous ∧ load (l.write true p) = .ok p.stripped) ∧
    ∀ bytes p, load bytes = .ok p →
      (bytes.length < 2 ^ 62 → ∀ q, p.Contains q → q.HasStringsBelow (2 ^ 64)) ∧
      ((∀ q, p.Contains q → q.HasStringsBelow (2 ^ 64)) →
        ∀ identified : Prototype, identified.anonymous = p → load (dump false identified) = .ok p) := by
  refine ⟨fun p hdepth hlists => ⟨fun hstrings => ?_, fun l hstrings => ?_⟩, fun bytes p hload => ?_⟩
  · exact ⟨load_write .standard false hdepth hlists hstrings, load_write .standard true hdepth hlists hstrings⟩
  · exact ⟨load_write l false hdepth hlists hstrings, load_write l true hdepth hlists hstrings⟩
  · obtain ⟨hanonymous, hdepth, hlists, hstrings⟩ := loaded_of_load hload
    refine ⟨fun hbytes q hq => (hstrings q hq).mono (by omega), fun hshort identified hidentified => ?_⟩
    have hsame : dump false identified = dump false p := by
      rw [← hidentified]
      exact (Layout.standard.write_anonymous false identified).symm
    rw [hsame]
    exact (load_write .standard false hdepth hlists hshort).trans (congrArg Except.ok hanonymous)

end Chunk

namespace Prototype

/-- A function from a source of its own. Among its constants is a number that is not equal to itself. -/
def excerpt : Prototype :=
  { empty "@b.lua" with
    id := 3
    constants := #[.numeral 0x7FF8000000000001, .numeral 0x8000000000000000, .str "λ", .bool true, .nil]
    lines := #[4] }

def footnote : Prototype :=
  { empty "@a.lua" with id := 2, upvalueCount := 1, upvalueNames := ["x"] }

/-- A function with two nested ones, the second of which has its source. -/
def volume : Prototype :=
  { empty "@a.lua" with
    id := 1
    varargFlags := 2
    code := #[30]
    children := [excerpt, footnote]
    lines := #[1]
    locals := [⟨"x", 0, 1⟩] }

theorem forall_volume_contains {P : Prototype → Prop} (hvolume : P volume) (hexcerpt : P excerpt)
    (hfootnote : P footnote) : ∀ q, volume.Contains q → P q := by
  refine forall_contains_iff.2 ⟨hvolume, List.forall_mem_cons.2 ⟨fun q hq => ?_, List.forall_mem_singleton.2 fun q hq => ?_⟩⟩
  · exact eq_of_contains rfl hq ▸ hexcerpt
  · exact eq_of_contains rfl hq ▸ hfootnote

end Prototype

namespace Chunk

theorem round_trips_volume :
    (load (dump false .volume) = .ok Prototype.volume.anonymous ∧
      load (dump true .volume) = .ok Prototype.volume.stripped) ∧
    load (Layout.write ⟨false, false⟩ false .volume) = .ok Prototype.volume.anonymous ∧
    load (dump false (Prototype.volume.identify 40).1) = .ok Prototype.volume.anonymous := by
  have hdepth : Prototype.volume.NestsWithin 2 := by
    simp [Prototype.NestsWithin, Prototype.volume, Prototype.excerpt, Prototype.footnote, Prototype.empty]
  have hlists : ∀ q, Prototype.volume.Contains q → q.HasShortLists := by
    apply Prototype.forall_volume_contains <;> constructor <;> decide
  have hstrings : ∀ q, Prototype.volume.Contains q → q.HasStringsBelow (256 ^ 4) := by
    apply Prototype.forall_volume_contains <;> constructor <;>
      simp [Prototype.volume, Prototype.excerpt, Prototype.footnote, Prototype.empty] <;> decide +kernel
  have h := round_trips.1 .volume (hdepth.mono (by decide)) hlists
  have hstandard := h.1 fun q hq => (hstrings q hq).mono (by decide)
  have hbig := (h.2 ⟨false, false⟩ hstrings).1
  have hreload := round_trips.2 _ _ hbig
  exact ⟨hstandard, hbig, hreload.2 (hreload.1 (by decide +kernel)) (Prototype.volume.identify 40).1 rfl⟩

end Chunk

end LuaMachine
