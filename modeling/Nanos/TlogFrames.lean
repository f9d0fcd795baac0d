import Mathlib.Data.List.TakeWhile
import Nanos.Tlog

set_option autoImplicit false

/-!
# What `log_read_complete` makes of the frames the writer puts

An entry goes out as segments: the first in a `TUPLE_AVAILABLE` frame with the entry's length, the
others in `TUPLE_EXTENDED` frames. `Feed` says what the reader does with one segment: an entry in
one segment is decoded in place, one in several is put together in `tuple_staging` and decoded
with its last segment. `readFrames_feeds` is the fact about bytes: the frame loop over the frames
of segments, followed by any byte, is the loop over what follows, from the state `Feeds` gives.
An entry is read back when the decoder, given the entry and any bytes after it, takes the entry
and leaves the rest (`Decodes`); the segments of such entries take the reader through the
decoder's states one entry after the other (`feeds_cut`).

The header that `log_extension_init` writes is read back by `log_hdr_parse` when the label reads
back as a C string (`logHdrParse_hdrBytes`), and `logRead_chain` follows a chain of extensions
whose bytes start with a header, the frames of segments, and a link or `END_OF_LOG`. An ASCII
label always reads back.
-/

namespace Nanos.Tlog
open Memory Rangemap Utf8

/-! ## Varints -/

/-- The bytes `push_varint` writes for `x`. -/
def varint (x : ℕ) : List ℕ := TupleEncoding.pushVarint [] x

theorem pushVarint_eq_varint (b : List ℕ) (x : ℕ) :
    TupleEncoding.pushVarint b x = b ++ varint x := by
  simp [TupleEncoding.pushVarint, varint]

theorem popVarint_varint {x : ℕ} (hx : x < 2 ^ 64) (rest : List ℕ) :
    TupleEncoding.popVarint (varint x ++ rest) = some (x, rest) := by
  obtain ⟨bytes, he, -, hp⟩ := TupleEncoding.pushVarint_popVarint hx [] rest
  rw [varint, he, List.nil_append]
  exact hp

theorem varint_eq_headerWords {x : ℕ} (hx : x < 2 ^ 64) :
    ∃ n, n ≤ 9 ∧ varint x = TupleEncoding.headerWords x (n + 1) := by
  obtain ⟨n, hn, -, he⟩ := TupleEncoding.pushVarint_eq hx []
  exact ⟨n, hn, he⟩

theorem length_varint_le {x : ℕ} (hx : x < 2 ^ 64) : (varint x).length ≤ 10 := by
  obtain ⟨n, hn, he⟩ := varint_eq_headerWords hx
  rw [he, TupleEncoding.length_headerWords]
  omega

theorem length_varint_pos {x : ℕ} (hx : x < 2 ^ 64) : 0 < (varint x).length := by
  obtain ⟨n, -, he⟩ := varint_eq_headerWords hx
  rw [he, TupleEncoding.length_headerWords]
  omega

theorem length_varint_le_of_shiftRight {x k : ℕ} (hk : 1 ≤ k) (h0 : x >>> (k * 7) = 0) :
    (varint x).length ≤ k := by
  obtain ⟨n, h1n, -, hlast, he⟩ := TupleEncoding.varintTmp_headerWords x (k - 1) 1 (le_refl 1)
    (by rwa [show 1 + (k - 1) = k by omega])
  have hfirst : [x &&& 0x7f] = (TupleEncoding.headerWords x 1).reverse := by
    simp [TupleEncoding.headerWords]
  have hv : varint x = TupleEncoding.headerWords x n := by
    rw [varint, TupleEncoding.pushVarint, hfirst, show x >>> 7 = x >>> (1 * 7) by rw [Nat.one_mul],
      he, List.reverse_reverse, List.nil_append]
  rw [hv, TupleEncoding.length_headerWords]
  by_contra hn
  -- the group below the top one would be zero as well
  have hz : x >>> ((n - 1) * 7) = 0 := by
    rw [show (n - 1) * 7 = k * 7 + (n - 1 - k) * 7 by
      rw [← Nat.add_mul]; congr 1; omega, Nat.shiftRight_add, h0, Nat.zero_shiftRight]
  exact hlast (by omega) hz

theorem length_varint_le_nine {x : ℕ} (hx : x < 2 ^ 63) : (varint x).length ≤ 9 :=
  length_varint_le_of_shiftRight (by decide) (by
    rw [Nat.shiftRight_eq_div_pow]
    exact Nat.div_eq_of_lt (Nat.lt_of_lt_of_le hx (by decide)))

/-! ## Segments and frames -/

/-- A segment of an entry: whether it is the first, the entry's length, and its bytes. -/
structure Seg where
  first : Bool
  total : ℕ
  data : List ℕ

/-- The frame that carries a segment, as `log_write_internal` pushes it. -/
def Seg.frame (s : Seg) : List ℕ :=
  if s.first then tupleAvailable :: (varint s.total ++ varint s.data.length ++ s.data)
  else tupleExtended :: (varint s.data.length ++ s.data)

def frames (segs : List Seg) : List ℕ := segs.flatMap Seg.frame

@[simp] theorem frames_nil : frames [] = [] := rfl

@[simp] theorem frames_cons (s : Seg) (segs : List Seg) :
    frames (s :: segs) = s.frame ++ frames segs := List.flatMap_cons

@[simp] theorem frames_append (a b : List Seg) : frames (a ++ b) = frames a ++ frames b :=
  List.flatMap_append

theorem length_le_length_frames (segs : List Seg) : segs.length ≤ (frames segs).length := by
  induction segs with
  | nil => exact Nat.le_refl 0
  | cons s segs ih =>
    have : 1 ≤ s.frame.length := by unfold Seg.frame; split <;> simp
    rw [frames_cons, List.length_append, List.length_cons]
    omega

/-- The frame `log_extend_link` pushes: a link to the sectors `r`. -/
def linkFrame (r : Range) : List ℕ := logExtensionLink :: (varint r.start ++ varint (rangeSpan r))

/-! ## The header -/

/-- The header `log_extension_init` writes at the start of an extension of the sectors `r`: the
    uuid and the label with its terminator only in the first extension. -/
def hdrBytes (fs : Fs) (r : Range) : List ℕ :=
  tfsMagic ++ varint tfsVersion ++ varint (rangeSpan r) ++
    if r.start = 0 then fs.uuid ++ (labelString fs.label ++ [0]) else []

/-- The label reads back as a C string: `read_cstring` takes it and its terminator. -/
def LabelReads (label : List ℕ) : Prop :=
  readCstring volumeLabelMaxLen (volumeLabelMaxLen + 1) 0 (labelString label ++ [0]) =
    some (labelString label ++ [0], [])

instance (label : List ℕ) : Decidable (LabelReads label) :=
  inferInstanceAs (Decidable (_ = _))

theorem readCstring_append {maxlen : ℕ} (rest : List ℕ) :
    ∀ {fuel count : ℕ} {b s t : List ℕ}, readCstring maxlen fuel count b = some (s, t) →
      readCstring maxlen fuel count (b ++ rest) = some (s, t ++ rest)
  | 0, _, _, _, _, h => nomatch h
  | _ + 1, _, [], _, _, h => nomatch h
  | fuel + 1, count, c :: b, s, t, h => by
    simp only [readCstring, List.cons_append] at h ⊢
    by_cases hlen : maxlen - count < utf8Length c ∨ (c :: b).length < utf8Length c
    · rw [if_pos hlen] at h
      exact nomatch h
    rw [if_neg hlen] at h
    have hle : utf8Length c ≤ (c :: b).length := by omega
    have hlen' : ¬(maxlen - count < utf8Length c ∨ (c :: (b ++ rest)).length < utf8Length c) := by
      simp only [List.length_cons, List.length_append] at hlen ⊢
      omega
    rw [if_neg hlen']
    rw [← List.cons_append, List.take_append_of_le_length hle, List.drop_append_of_le_length hle]
    by_cases hc : c = 0
    · rw [if_pos hc] at h ⊢
      obtain ⟨rfl, rfl⟩ := Prod.mk.inj (Option.some.inj h)
      rfl
    · rw [if_neg hc] at h ⊢
      obtain ⟨⟨s', t'⟩, hr, hst⟩ := Option.map_eq_some_iff.1 h
      rw [readCstring_append rest hr]
      obtain ⟨rfl, rfl⟩ := Prod.mk.inj hst
      rfl

theorem readCstring_ascii_step {maxlen fuel count c : ℕ} {b : List ℕ} (hc0 : c ≠ 0)
    (hc : c < 0x80) (hroom : count < maxlen) :
    readCstring maxlen (fuel + 1) count (c :: b) =
      (readCstring maxlen fuel (count + 1) b).map fun x => (c :: x.1, x.2) := by
  have h1 : utf8Length c = 1 := utf8Length_one hc
  have hfits : ¬(maxlen - count < 1 ∨ (c :: b).length < 1) := by
    simp only [List.length_cons]
    omega
  simp only [readCstring, h1, if_neg hfits, if_neg hc0, List.take_one, List.drop_one,
    List.head?_cons, List.tail_cons]
  rfl

theorem readCstring_ascii (maxlen : ℕ) :
    ∀ (fuel count : ℕ) (s : List ℕ), (∀ c ∈ s, c ≠ 0 ∧ c < 0x80) → count + s.length < maxlen →
      s.length < fuel → readCstring maxlen fuel count (s ++ [0]) = some (s ++ [0], [])
  | 0, _, _, _, _, hfuel => absurd hfuel (Nat.not_lt_zero _)
  | fuel + 1, count, [], _, hmax, _ => by
    have h1 : utf8Length 0 = 1 := utf8Length_one (by decide)
    have hfits : ¬(maxlen - count < 1 ∨ [0].length < 1) := by
      simp only [List.length_nil, List.length_singleton] at hmax ⊢
      omega
    simp only [List.nil_append, readCstring, h1, if_neg hfits, if_true]
    rfl
  | fuel + 1, count, c :: s, hs, hmax, hfuel => by
    obtain ⟨hc0, hc⟩ := hs c List.mem_cons_self
    have ih := readCstring_ascii maxlen fuel (count + 1) s
      (fun x hx => hs x (List.mem_cons_of_mem c hx))
      (by simp only [List.length_cons] at hmax; omega) (by simp only [List.length_cons] at hfuel; omega)
    rw [List.cons_append,
      readCstring_ascii_step hc0 hc (by simp only [List.length_cons] at hmax; omega), ih]
    rfl

theorem labelReads_of_ascii {label : List ℕ} (hascii : ∀ c ∈ label, c < 0x80)
    (hlen : label.length < volumeLabelMaxLen) : LabelReads label := by
  have hsub : ∀ c ∈ labelString label, c ≠ 0 ∧ c < 0x80 := by
    intro c hc
    have hw := List.mem_takeWhile_imp hc
    exact ⟨by simpa using hw, hascii c (List.mem_of_mem_take ((List.takeWhile_sublist _).subset hc))⟩
  have hl : (labelString label).length ≤ label.length :=
    ((List.takeWhile_sublist _).length_le).trans (List.length_take_le' _ _)
  exact readCstring_ascii _ _ _ _ hsub (by omega) (by unfold volumeLabelMaxLen at hlen ⊢; omega)

/-- What `create_filesystem` keeps of an ASCII label reads back. -/
theorem labelReads_createFilesystemLabel {label : List ℕ} (hascii : ∀ c ∈ label, c < 0x80) :
    LabelReads (createFilesystemLabel label) := by
  unfold createFilesystemLabel
  split
  · exact labelReads_of_ascii (fun c hc => hascii c (List.mem_of_mem_take hc))
      (by rw [List.length_take]; unfold volumeLabelMaxLen; omega)
  · exact labelReads_of_ascii hascii (by omega)

/-- The header of the first extension: `log_hdr_parse` comes to `read_cstring` of the label and
    what follows it. -/
theorem logHdrParse_hdrBytes_first (fs : Fs) {r : Range} (hspan : rangeSpan r < 2 ^ 64)
    (h0 : r.start = 0) (rest : List ℕ) :
    logHdrParse true (hdrBytes fs r ++ rest) =
      match readCstring volumeLabelMaxLen (volumeLabelMaxLen + 1) 0
        (labelString fs.label ++ [0] ++ rest) with
      | none => some (.error .invalidLabel)
      | some (label, b) => some (.ok ⟨false, rangeSpan r, some fs.uuid, some label, b⟩) := by
  have hv : (5 : ℕ) < 2 ^ 64 := by decide
  have hu : fs.uuid.length = uuidLen := fs.uuid_length
  have hroom : uuidLen ≤ (fs.uuid ++ (labelString fs.label ++ [0] ++ rest)).length := by
    rw [List.length_append, hu]
    exact Nat.le_add_right _ _
  unfold logHdrParse hdrBytes tfsVersion
  simp only [List.append_assoc, List.take_left, List.drop_left, ne_eq, not_true_eq_false,
    popVarint_varint hv, popVarint_varint hspan, and_false, h0, ↓reduceIte]
  rw [← List.append_assoc (labelString fs.label), if_pos hroom]
  simp only [List.take_left' hu, List.drop_left' hu]
  rfl

/-- `log_hdr_parse` reads back the header of an extension, and leaves the bytes after it. -/
theorem logHdrParse_hdrBytes (fs : Fs) {r : Range} (hspan : rangeSpan r < 2 ^ 64)
    (hl : LabelReads fs.label) (rest : List ℕ) :
    logHdrParse (decide (r.start = 0)) (hdrBytes fs r ++ rest) =
      some (.ok ⟨false, rangeSpan r, if r.start = 0 then some fs.uuid else none,
        if r.start = 0 then some (labelString fs.label ++ [0]) else none, rest⟩) := by
  by_cases h0 : r.start = 0
  · -- the first extension: its label and terminator, then the rest
    rw [decide_eq_true h0, logHdrParse_hdrBytes_first fs hspan h0, readCstring_append rest hl]
    simp only [h0, if_true, List.nil_append]
  · have hv : (5 : ℕ) < 2 ^ 64 := by decide
    unfold logHdrParse hdrBytes tfsVersion
    simp only [List.append_assoc, List.take_left, List.drop_left, ne_eq, not_true_eq_false,
      if_false, popVarint_varint hv, popVarint_varint hspan, and_false]
    simp only [h0, decide_false, if_false, List.nil_append]
    rfl

/-! ## The reader, segment by segment -/

section Reading

variable {D : Type} (decode : Bool → D → List ℕ → Option (D × List ℕ)) (old : Bool)

/-- The decoder takes exactly the entry `e`, whatever follows it, and goes from `d` to `d'`. -/
def Decodes (d : D) (e : List ℕ) (d' : D) : Prop :=
  ∀ rest, decode old d (e ++ rest) = some (d', rest)

/-- The decoder takes the entries one after the other. -/
inductive DecodeChain : D → List (List ℕ) → D → Prop
  | nil (d : D) : DecodeChain d [] d
  | cons {d d' d'' : D} {e : List ℕ} {es : List (List ℕ)} :
      Decodes decode old d e d' → DecodeChain d' es d'' → DecodeChain d (e :: es) d''

/-- What the frame loop does with the frame of one segment. -/
inductive Feed : Reader D → Seg → Reader D → Prop
  /-- An entry in one segment, decoded in place. -/
  | whole {d d' : D} {st : List ℕ} {s : Seg} : s.first = true → s.data.length = s.total →
      Decodes decode old d s.data d' → Feed ⟨d, st, 0⟩ s ⟨d', st, 0⟩
  /-- The first segment of an entry in several. -/
  | part {d : D} {st : List ℕ} {s : Seg} : s.first = true → s.data.length < s.total →
      Feed ⟨d, st, 0⟩ s ⟨d, s.data, s.total - s.data.length⟩
  /-- A later segment, not the last. -/
  | more {d : D} {st : List ℕ} {remain : ℕ} {s : Seg} : s.first = false →
      s.data.length < remain → Feed ⟨d, st, remain⟩ s ⟨d, st ++ s.data, remain - s.data.length⟩
  /-- The last segment: the entry put together is decoded. -/
  | last {d d' : D} {st junk : List ℕ} {s : Seg} : s.first = false →
      decode old d (st ++ s.data) = some (d', junk) → Feed ⟨d, st, s.data.length⟩ s ⟨d', [], 0⟩

/-- What the frame loop does with the frames of segments. -/
inductive Feeds : Reader D → List Seg → Reader D → Prop
  | nil (r : Reader D) : Feeds r [] r
  | cons {r r' r'' : Reader D} {s : Seg} {segs : List Seg} :
      Feed decode old r s r' → Feeds r' segs r'' → Feeds r (s :: segs) r''

variable {decode old}

theorem Feeds.append {r r' r'' : Reader D} {a b : List Seg} (ha : Feeds decode old r a r')
    (hb : Feeds decode old r' b r'') : Feeds decode old r (a ++ b) r'' := by
  induction ha with
  | nil => exact hb
  | cons h _ ih => exact .cons h (ih hb)

theorem Feeds.singleton {r r' : Reader D} {s : Seg} (h : Feed decode old r s r') :
    Feeds decode old r [s] r' :=
  .cons h (.nil r')

theorem Feeds.of_append {r r'' : Reader D} {a b : List Seg}
    (h : Feeds decode old r (a ++ b) r'') : ∃ r', Feeds decode old r a r' ∧ Feeds decode old r' b r'' := by
  induction a generalizing r with
  | nil => exact ⟨r, .nil r, h⟩
  | cons s a ih =>
    cases h with
    | cons hs hrest =>
      obtain ⟨r', ha, hb⟩ := ih hrest
      exact ⟨r', .cons hs ha, hb⟩

/-! ## Entries -/

/-- The segments of the chunks `cs` of an entry of `total` bytes; the first of them is the
    entry's first segment when `first` holds. -/
def chunkSegs (total : ℕ) (first : Bool) : List (List ℕ) → List Seg
  | [] => []
  | c :: cs => ⟨first, total, c⟩ :: chunkSegs total false cs

@[simp] theorem chunkSegs_nil (total : ℕ) (first : Bool) : chunkSegs total first [] = [] := rfl

@[simp] theorem chunkSegs_cons (total : ℕ) (first : Bool) (c : List ℕ) (cs : List (List ℕ)) :
    chunkSegs total first (c :: cs) = ⟨first, total, c⟩ :: chunkSegs total false cs := rfl

theorem chunkSegs_append (total : ℕ) (cs cs' : List (List ℕ)) :
    chunkSegs total false (cs ++ cs') = chunkSegs total false cs ++ chunkSegs total false cs' := by
  induction cs with
  | nil => rfl
  | cons c cs ih => rw [List.cons_append, chunkSegs_cons, chunkSegs_cons, ih, List.cons_append]

/-- The segments of an entry cut into the chunks `cs`, the first with the entry's length. -/
def entrySegs (e : List ℕ) (cs : List (List ℕ)) : List Seg := chunkSegs e.length true cs

/-- Chunks of an entry: there are some, none is empty, and together they are the entry. -/
def Chunks (e : List ℕ) (cs : List (List ℕ)) : Prop :=
  cs ≠ [] ∧ (∀ c ∈ cs, c ≠ []) ∧ cs.flatten = e

/-- The later segments of an entry, with the first bytes `pre` staged, put it together and
    decode it; the induction is on the chunks left. -/
theorem feeds_later {d d' : D} {e : List ℕ} (hd : Decodes decode old d e d') :
    ∀ {pre : List ℕ} {cs : List (List ℕ)}, cs ≠ [] → (∀ c ∈ cs, c ≠ []) → pre ++ cs.flatten = e →
      Feeds decode old ⟨d, pre, e.length - pre.length⟩ (chunkSegs e.length false cs) ⟨d', [], 0⟩
  | _, [], hne, _, _ => absurd rfl hne
  | pre, [c], _, _, he => by
    -- the last segment: what is staged and its bytes are the entry
    have hlen : e.length - pre.length = c.length := by
      rw [← he, List.flatten_singleton, List.length_append]; omega
    have hdec : decode old d (pre ++ c) = some (d', []) := by
      have := hd []
      rwa [List.append_nil, ← he, List.flatten_singleton] at this
    have hf : Feed decode old ⟨d, pre, c.length⟩ ⟨false, e.length, c⟩ ⟨d', [], 0⟩ :=
      @Feed.last D decode old d d' pre [] ⟨false, e.length, c⟩ rfl hdec
    rw [hlen]
    exact .singleton hf
  | pre, c :: c' :: cs, _, hc, he => by
    have hc' : c' ≠ [] := hc c' (by simp)
    have hlt : c.length < e.length - pre.length := by
      have : 0 < c'.length := List.length_pos_of_ne_nil hc'
      rw [← he]
      simp only [List.flatten_cons, List.length_append]
      omega
    have hrest : Feeds decode old ⟨d, pre ++ c, e.length - (pre ++ c).length⟩
        (chunkSegs e.length false (c' :: cs)) ⟨d', [], 0⟩ :=
      feeds_later hd (List.cons_ne_nil _ _) (fun x hx => hc x (List.mem_cons_of_mem c hx))
        (by simp only [← he, List.flatten_cons, List.append_assoc])
    rw [List.length_append, ← Nat.sub_sub] at hrest
    exact .cons (.more rfl hlt) hrest

/-- The segments of an entry take the reader from one decoder state to the next. -/
theorem feeds_entry {d d' : D} {e : List ℕ} {cs : List (List ℕ)} (hcs : Chunks e cs)
    (hd : Decodes decode old d e d') : Feeds decode old ⟨d, [], 0⟩ (entrySegs e cs) ⟨d', [], 0⟩ := by
  obtain ⟨hne, hc, he⟩ := hcs
  match cs, hne, hc, he with
  | [c], _, _, he =>
    rw [List.flatten_singleton] at he
    subst he
    exact .singleton (.whole rfl rfl hd)
  | c :: c' :: cs, _, hc, he =>
    have hc' : c' ≠ [] := hc c' (by simp)
    have hlt : c.length < e.length := by
      have : 0 < c'.length := List.length_pos_of_ne_nil hc'
      rw [← he]
      simp only [List.flatten_cons, List.length_append]
      omega
    exact .cons (.part rfl hlt) (feeds_later hd (List.cons_ne_nil _ _)
      (fun x hx => hc x (List.mem_cons_of_mem c hx)) (by rw [← he, List.flatten_cons]))

/-- The first chunks of an entry cut short leave it staged, with the rest to come. -/
theorem feeds_entry_short {d : D} {e : List ℕ} :
    ∀ {cs : List (List ℕ)}, cs ≠ [] → (∀ c ∈ cs, c ≠ []) → cs.flatten.length < e.length →
      Feeds decode old ⟨d, [], 0⟩ (entrySegs e cs) ⟨d, cs.flatten, e.length - cs.flatten.length⟩
  | [], hne, _, _ => absurd rfl hne
  | c :: cs, _, hc, hlt => by
    -- the first segment stages its chunk, and each later one adds its own
    have hmid : ∀ (pre : List ℕ) (cs : List (List ℕ)), (pre ++ cs.flatten).length < e.length →
        Feeds decode old ⟨d, pre, e.length - pre.length⟩ (chunkSegs e.length false cs)
          ⟨d, pre ++ cs.flatten, e.length - (pre ++ cs.flatten).length⟩ := by
      intro pre cs
      induction cs generalizing pre with
      | nil => intro _; simpa using Feeds.nil _
      | cons x xs ih =>
        intro hlt'
        have hx : x.length < e.length - pre.length := by
          simp only [List.flatten_cons, List.length_append] at hlt'
          omega
        have := ih (pre ++ x) (by simpa [List.append_assoc] using hlt')
        rw [List.length_append, ← Nat.sub_sub, List.append_assoc] at this
        exact .cons (.more rfl hx) (by simpa using this)
    have hc0 : c.length < e.length := by
      simp only [List.flatten_cons, List.length_append] at hlt
      omega
    have := hmid c cs (by simpa using hlt)
    exact .cons (.part rfl hc0) (by simpa using this)

/-- Segments that carry the entries `es`, each cut into chunks. -/
inductive Cut : List (List ℕ) → List Seg → Prop
  | nil : Cut [] []
  | cons {e : List ℕ} {es : List (List ℕ)} {cs : List (List ℕ)} {segs : List Seg} :
      Chunks e cs → Cut es segs → Cut (e :: es) (entrySegs e cs ++ segs)

theorem Cut.append {es es' : List (List ℕ)} {segs segs' : List Seg} (h : Cut es segs)
    (h' : Cut es' segs') : Cut (es ++ es') (segs ++ segs') := by
  induction h with
  | nil => exact h'
  | cons hc _ ih => rw [List.cons_append, List.append_assoc]; exact .cons hc ih

/-- The segments of entries the decoder takes one after the other lead the reader through its
    states. -/
theorem feeds_cut {d d' : D} {es : List (List ℕ)} {segs : List Seg} (h : Cut es segs)
    (hd : DecodeChain decode old d es d') : Feeds decode old ⟨d, [], 0⟩ segs ⟨d', [], 0⟩ := by
  induction h generalizing d with
  | nil =>
    cases hd
    exact .nil _
  | cons hc _ ih =>
    cases hd with
    | cons he hrest => exact (feeds_entry hc he).append (ih hrest)

/-- Segments that carry the entries `es`, each cut into chunks, and then the first chunks `cs`
    of the entry `e`, cut short: what is on disk when the log failed within `e`. -/
def CutShort (es : List (List ℕ)) (e : List ℕ) (cs : List (List ℕ)) (segs : List Seg) : Prop :=
  ∃ segs₀, Cut es segs₀ ∧ segs = segs₀ ++ chunkSegs e.length true cs ∧ (∀ c ∈ cs, c ≠ []) ∧
    cs.flatten.length < e.length

/-- The segments of entries cut short take the reader to the state after the whole ones, with
    the chunks of the last one staged. -/
theorem feeds_cutShort {d d' : D} {es : List (List ℕ)} {e : List ℕ} {cs : List (List ℕ)}
    {segs : List Seg} (h : CutShort es e cs segs) (hd : DecodeChain decode old d es d') :
    ∃ r', Feeds decode old ⟨d, [], 0⟩ segs r' ∧ r'.dec = d' := by
  obtain ⟨segs₀, hcut, rfl, hcs, hlt⟩ := h
  have h₀ := feeds_cut hcut hd
  cases cs with
  | nil => exact ⟨_, by simpa using h₀, rfl⟩
  | cons x xs =>
    exact ⟨_, h₀.append (feeds_entry_short (List.cons_ne_nil x xs) hcs hlt), rfl⟩

theorem readFrames_feed {r r' : Reader D} {s : Seg} (h : Feed decode old r s r')
    (htotal : s.total < 2 ^ 64) (hlen : s.data.length < 2 ^ 64) {rest : List ℕ} (hrest : rest ≠ [])
    (fuel : ℕ) :
    readFrames decode old (fuel + 1) r (s.frame ++ rest) = readFrames decode old fuel r' rest := by
  have hpos : 0 < rest.length := List.length_pos_of_ne_nil hrest
  have h2 : tupleAvailable ≠ endOfLog ∧ tupleAvailable ≠ endOfSegment ∧
      tupleAvailable ≠ logExtensionLink := by decide
  have h3 : tupleExtended ≠ endOfLog ∧ tupleExtended ≠ endOfSegment ∧
      tupleExtended ≠ logExtensionLink ∧ tupleExtended ≠ tupleAvailable := by decide
  cases h with
  | whole hf hl hd =>
    rename_i d d' st
    rw [Seg.frame, if_pos hf, List.cons_append, readFrames]
    simp only [h2, if_false, if_true, gt_iff_lt, Nat.lt_irrefl, List.append_assoc,
      popVarint_varint htotal, List.length_append, hl, false_or]
    rw [hd rest, if_neg (by omega)]
  | part hf hl =>
    rename_i d st
    rw [Seg.frame, if_pos hf, List.cons_append, readFrames]
    simp only [h2, if_false, if_true, gt_iff_lt, Nat.lt_irrefl, List.append_assoc,
      popVarint_varint htotal, popVarint_varint hlen, List.length_append]
    rw [if_neg (by omega), if_neg (by omega), List.take_left' rfl, List.drop_left' rfl]
  | more hf hl =>
    rename_i d st remain
    rw [Seg.frame, if_neg (by simp [hf]), List.cons_append, readFrames]
    simp only [h3, if_false, if_true, List.append_assoc, popVarint_varint hlen, List.length_append,
      List.take_left' rfl, List.drop_left' rfl]
    rw [if_neg (by omega), if_neg (by omega), if_neg (by omega)]
  | last hf hd =>
    rename_i d d' st junk
    rw [Seg.frame, if_neg (by simp [hf]), List.cons_append, readFrames]
    simp only [h3, if_false, if_true, List.append_assoc, popVarint_varint hlen, List.length_append,
      List.take_left' rfl, List.drop_left' rfl, Nat.lt_irrefl, Nat.sub_self]
    rw [if_neg (by omega), hd]

/-- The segments the writer puts: lengths that a varint holds. -/
def Seg.Fits (s : Seg) : Prop := s.total < 2 ^ 64 ∧ s.data.length < 2 ^ 64

/-- The frame loop over the frames of segments, when some byte follows them. -/
theorem readFrames_feeds {r r' : Reader D} {segs : List Seg} (h : Feeds decode old r segs r')
    (hfit : ∀ s ∈ segs, s.Fits) {rest : List ℕ} (hrest : rest ≠ []) (fuel : ℕ) :
    readFrames decode old (fuel + segs.length) r (frames segs ++ rest) =
      readFrames decode old fuel r' rest := by
  induction h generalizing fuel with
  | nil => rfl
  | @cons r r' r'' s segs hs _ ih =>
    have hs' := hfit s List.mem_cons_self
    rw [List.length_cons, ← Nat.add_assoc, frames_cons, List.append_assoc,
      readFrames_feed hs hs'.1 hs'.2 (by simp [hrest]) (fuel + segs.length)]
    exact ih (fun t ht => hfit t (List.mem_cons_of_mem s ht)) fuel

theorem readFrames_endOfLog (r : Reader D) (rest : List ℕ) (fuel : ℕ) :
    readFrames decode old (fuel + 1) r (endOfLog :: rest) = some (.endOfLog r rest) := by
  simp [readFrames]

theorem readFrames_link (r : Reader D) {x : Range} (hs : x.start < 2 ^ 64)
    (hspan : rangeSpan x < 2 ^ 64) (hpos : rangeSpan x ≠ 0) (rest : List ℕ) (fuel : ℕ) :
    readFrames decode old (fuel + 1) r (linkFrame x ++ rest) =
      some (.link r x.start (rangeSpan x)) := by
  simp only [linkFrame, List.cons_append, List.append_assoc, readFrames, endOfLog, endOfSegment,
    logExtensionLink, if_true, popVarint_varint hs, popVarint_varint hspan, if_neg hpos]
  simp

/-- The frame loop over the frames of segments and at least a byte after them, with the fuel
    `log_read_complete` gives it: the loop over what follows, with some fuel left. -/
theorem readFrames_frames {r r₁ : Reader D} {segs : List Seg} (h : Feeds decode old r segs r₁)
    (hfit : ∀ s ∈ segs, s.Fits) (rest : List ℕ) (hrest : rest ≠ []) :
    ∃ n, readFrames decode old ((frames segs ++ rest).length + 1) r (frames segs ++ rest) =
      readFrames decode old (n + 1) r₁ rest := by
  have hle := length_le_length_frames segs
  have hpos := List.length_pos_of_ne_nil hrest
  refine ⟨(frames segs ++ rest).length - segs.length, ?_⟩
  have hfuel : (frames segs ++ rest).length + 1 =
      (frames segs ++ rest).length - segs.length + 1 + segs.length := by
    rw [List.length_append]
    omega
  rw [hfuel]
  exact readFrames_feeds h hfit hrest _

/-! ## A chain of extensions -/

/-- The bytes of the extension of the sectors `r` on `disk` start with its header, the frames of
    `segs`, and `tail`. -/
def OnDisk (g : Geometry) (fs : Fs) (disk : ℕ → ℕ) (r : Range) (segs : List Seg)
    (tail : List ℕ) : Prop :=
  hdrBytes fs r ++ frames segs ++ tail <+:
    read disk (g.bytesFromSectors r.start) (g.bytesFromSectors (rangeSpan r))

/-- A chain of extensions from `x` on, each with its segments: each but the last ends with a link
    to the next, the last with `END_OF_LOG`. -/
def ChainOnDisk (g : Geometry) (fs : Fs) (disk : ℕ → ℕ) :
    Range × List Seg → List (Range × List Seg) → Prop
  | (r, segs), [] => OnDisk g fs disk r segs [endOfLog]
  | (r, segs), y :: ys => OnDisk g fs disk r segs (linkFrame y.1) ∧ ChainOnDisk g fs disk y ys

/-- An extension whose header and link the reader takes: its sectors are not empty and their
    numbers fit in varints, and so do the fields of its segments. -/
def ExtFits (x : Range × List Seg) : Prop :=
  x.1.start < x.1.end ∧ x.1.end < 2 ^ 64 ∧ ∀ s ∈ x.2, s.Fits

theorem irangel_start_rangeSpan {r : Range} (h : r.start ≤ r.end) :
    irangel r.start (rangeSpan r) = r := by
  cases r
  simp only [irangel, rangeSpan, Range.mk.injEq, true_and] at h ⊢
  omega

theorem option_or_ite (p : Prop) [Decidable p] {α : Type} (a : α) (b : Option α) :
    (if p then some a else none).or b = if p then some a else b := by
  split <;> rfl

variable (g : Geometry) (fs : Fs) (disk : ℕ → ℕ)

/-- `log_read` on an extension whose bytes start with its header, the frames of its segments and
    a link: the header is read back, and the reader goes on in the extension linked to. -/
theorem logRead_link (hl : LabelReads fs.label) {x y : Range × List Seg}
    (hdisk : OnDisk g fs disk x.1 x.2 (linkFrame y.1)) (hx : ExtFits x) (hy : ExtFits y)
    {r r₁ : Reader D} (hfeeds : Feeds decode false r x.2 r₁) (uuid label : Option (List ℕ))
    (fuel : ℕ) :
    logRead decode g disk (fuel + 1) (openLogExtension g x.1) r uuid label =
      logRead decode g disk fuel (openLogExtension g y.1) r₁
        (if x.1.start = 0 then some fs.uuid else uuid)
        (if x.1.start = 0 then some (labelString fs.label ++ [0]) else label) := by
  obtain ⟨hlt, hend, hsegs⟩ := hx
  obtain ⟨hlt', hend', -⟩ := hy
  obtain ⟨junk, hj⟩ := hdisk
  have hspan : rangeSpan x.1 < 2 ^ 64 := by unfold rangeSpan; omega
  obtain ⟨n, hn⟩ := readFrames_frames hfeeds hsegs (linkFrame y.1 ++ junk) (by simp [linkFrame])
  rw [logRead, openLogExtension_sectors, openLogExtension_isOpen, logSize_openLogExtension]
  simp only [Bool.false_eq_true, if_false]
  rw [← hj, List.append_assoc, List.append_assoc]
  simp only [logHdrParse_hdrBytes fs hspan hl, option_or_ite]
  rw [hn, readFrames_link r₁ (by omega) (by unfold rangeSpan; omega) (by unfold rangeSpan; omega)]
  dsimp only
  rw [irangel_start_rangeSpan hlt'.le]

/-- `log_read` on an extension whose bytes start with its header, the frames of its segments and
    `END_OF_LOG`: the reader stops there, in the state `Feeds` gives. -/
theorem logRead_endOfLog (hl : LabelReads fs.label) {x : Range × List Seg}
    (hdisk : OnDisk g fs disk x.1 x.2 [endOfLog]) (hx : ExtFits x) {r r₁ : Reader D}
    (hfeeds : Feeds decode false r x.2 r₁) (uuid label : Option (List ℕ)) (fuel : ℕ) :
    ∃ res, logRead decode g disk (fuel + 1) (openLogExtension g x.1) r uuid label = some (.ok res) ∧
      res.reader.dec = r₁.dec ∧ res.uuid = (if x.1.start = 0 then some fs.uuid else uuid) ∧
      res.label = (if x.1.start = 0 then some (labelString fs.label ++ [0]) else label) := by
  obtain ⟨hlt, hend, hsegs⟩ := hx
  obtain ⟨junk, hj⟩ := hdisk
  have hspan : rangeSpan x.1 < 2 ^ 64 := by unfold rangeSpan; omega
  obtain ⟨n, hn⟩ := readFrames_frames hfeeds hsegs ([endOfLog] ++ junk) (by simp)
  rw [logRead, openLogExtension_sectors, openLogExtension_isOpen, logSize_openLogExtension]
  simp only [Bool.false_eq_true, if_false]
  rw [← hj, List.append_assoc, List.append_assoc]
  simp only [logHdrParse_hdrBytes fs hspan hl, option_or_ite]
  rw [hn, List.singleton_append, readFrames_endOfLog]
  exact ⟨_, rfl, rfl, rfl, rfl⟩

/-- `log_read` follows a chain of extensions on disk to its end, through the states the frames of
    their segments take the reader, and keeps the uuid and label of the first extension. The
    induction is on the extensions after the first. -/
theorem logRead_chain (hl : LabelReads fs.label) :
    ∀ (xs : List (Range × List Seg)) (x : Range × List Seg) (r r' : Reader D)
      (uuid label : Option (List ℕ)) (fuel : ℕ), ChainOnDisk g fs disk x xs →
      (∀ y ∈ x :: xs, ExtFits y) → (∀ y ∈ xs, y.1.start ≠ 0) →
      Feeds decode false r ((x :: xs).flatMap Prod.snd) r' → xs.length < fuel →
      ∃ res, logRead decode g disk fuel (openLogExtension g x.1) r uuid label = some (.ok res) ∧
        res.reader.dec = r'.dec ∧ res.uuid = (if x.1.start = 0 then some fs.uuid else uuid) ∧
        res.label = (if x.1.start = 0 then some (labelString fs.label ++ [0]) else label)
  | [], x, r, r', uuid, label, fuel + 1, hchain, hfit, _, hfeeds, _ => by
    rw [List.flatMap_singleton] at hfeeds
    exact logRead_endOfLog g fs disk hl hchain (hfit x List.mem_cons_self) hfeeds uuid label
      fuel
  | y :: ys, x, r, r', uuid, label, fuel + 1, hchain, hfit, hstart, hfeeds, hlen => by
    obtain ⟨hdisk, hrest⟩ := hchain
    rw [List.flatMap_cons] at hfeeds
    obtain ⟨r₁, hx, hys⟩ := Feeds.of_append hfeeds
    rw [logRead_link g fs disk hl hdisk (hfit x List.mem_cons_self)
      (hfit y (List.mem_cons_of_mem x List.mem_cons_self)) hx]
    obtain ⟨res, hres, hdec, hu, hlab⟩ := logRead_chain hl ys y r₁ r' _ _ fuel hrest
      (fun z hz => hfit z (List.mem_cons_of_mem x hz)) (fun z hz => hstart z (List.mem_cons_of_mem y hz))
      hys (by simp only [List.length_cons] at hlen; omega)
    have hy0 : y.1.start ≠ 0 := hstart y List.mem_cons_self
    refine ⟨res, hres, hdec, ?_, ?_⟩
    · rw [hu, if_neg hy0]
    · rw [hlab, if_neg hy0]

end Reading

end Nanos.Tlog
