import Nanos.TlogInvariant

set_option autoImplicit false

/-!
# What the log writes, `log_read` reads back

Over a whole run of the writer, from `log_create` of a new filesystem through any writes and
flushes, `Holds` says what the entries the log took have become: in a live log the first of them
are in the segments of the chain and the others staged (`Live`); in a failed one the segments
carry the first of them and the first chunks of the next (`Failed`). After a flush the current
extension is on disk too. `step_spec` is the step lemma, `run_spec` the run lemma, and
`logCreate_spec` the start. `Holds.readBack` puts the invariant together with the reader's
`logRead_chain`: on the disk of a flushed log, `log_read` succeeds, with the uuid and label of
the filesystem, and leaves its decoder as it is after the first entries the chain carries; the
entries after them are still staged, unless the log failed.
-/

namespace Nanos.Tlog
open Memory Rangemap Transition

/-- A live log: the segments carry the first `n` entries, and the others are staged. -/
def Live (w : World) (stream : List Seg) : Prop :=
  ∃ n, n ≤ w.entries.length ∧ Cut (w.entries.take n) stream ∧
    w.log.tupleStaging = (w.entries.drop n).flatten ∧
    w.log.encodingLengths = (w.entries.drop n).map List.length

/-- A failed log: the segments carry the first `n` entries and the first chunks of the next. -/
def Failed (w : World) (stream : List Seg) : Prop :=
  ∃ n e cs, w.entries[n]? = some e ∧ CutShort (w.entries.take n) e cs stream

/-- How the log stands between the calls on it, with the chain `c` it has put. -/
structure Holds (g : Geometry) (fs : Fs) (w : World) (c : Chain) : Prop where
  core : Core g fs w c
  carries : (w.log.state = .linked ∧ Live w c.stream) ∨
    (w.log.state = .failed ∧ w.log.dirty = false ∧ Failed w c.stream)
  synced : w.log.dirty = false → w.entries ≠ [] →
    OnDisk g fs w.disk w.log.current.sectors c.segs [endOfLog]
  entries : ∀ e ∈ w.entries, e ≠ [] ∧ e.length < 2 ^ 32
  empty : w.entries = [] → w.log.state = .linked ∧ w.log.tupleStaging = []

theorem CutShort.cut_append {es₀ es : List (List ℕ)} {e : List ℕ} {cs : List (List ℕ)}
    {s₀ s : List Seg} (h₀ : Cut es₀ s₀) (h : CutShort es e cs s) :
    CutShort (es₀ ++ es) e cs (s₀ ++ s) := by
  obtain ⟨s₁, h₁, rfl, hcs, hlt⟩ := h
  exact ⟨s₀ ++ s₁, h₀.append h₁, (List.append_assoc _ _ _).symm, hcs, hlt⟩

section Steps

variable {g : Geometry} {fs : Fs}

theorem Core.congr {w : World} {c : Chain} (hc : Core g fs w c) (w' : World) (hdisk : w'.disk = w.disk)
    (hstorage : w'.storage = w.storage) (hcur : w'.log.current = w.log.current) :
    Core g fs w' c := by
  obtain ⟨log, disk, storage, entries⟩ := w'
  obtain ⟨current, _, _, _, _⟩ := log
  simp only at hdisk hstorage hcur
  subst hdisk hstorage hcur
  exact ⟨hc.head, hc.linked, hc.staged, hc.room, hc.closed_ext, hc.newEncoding, hc.apart,
    hc.bounded, hc.fits⟩

/-- `flush_log_extension` of the current extension under the invariant: the extension is on
    disk with `END_OF_LOG` after its frames, and the chain stands as it did. -/
theorem Core.flush {w : World} {c : Chain} (hc : Core g fs w c) :
    ∃ disk' cur, flushLogExtension g w.disk w.log.current false = some (disk', cur) ∧
      cur.sectors = w.log.current.sectors ∧
      Core g fs { w with disk := disk', log := { w.log with current := cur } } c ∧
      OnDisk g fs disk' w.log.current.sectors c.segs [endOfLog] := by
  have hroom := hc.room
  obtain ⟨disk', cur, hfl, hsec, hopen, henc, hpre, hframe, hst⟩ :=
    hc.staged.flush (by omega) false
  have hcur : w.log.current.sectors ∈ allRanges g c w.log.current.sectors w.storage :=
    List.mem_append_right _ List.mem_cons_self
  have hb := hc.bounded _ hcur
  have hlinked : Linked g fs disk' c.closed w.log.current.sectors :=
    hc.linked.of_frame hframe hb.1.le fun x hx =>
      ⟨(hc.bounded x.1 (List.mem_append_left _ (List.mem_map_of_mem hx))).1.le,
        ((apart_of_pairwise hc.apart).1 x.1 (List.mem_map_of_mem hx)).symm⟩
  refine ⟨disk', cur, hfl, hsec, ?_, hpre⟩
  exact {
    head := hc.head
    linked := by
      show Linked g fs disk' c.closed cur.sectors
      rw [hsec]
      exact hlinked
    staged := by
      show Staged g disk' cur (hdrBytes fs cur.sectors ++ frames c.segs)
      rw [hsec]
      exact hst rfl
    room := by
      show (hdrBytes fs cur.sectors ++ frames c.segs).length + 20 ≤ logSize g cur
      rw [logSize, hsec]
      exact hroom
    closed_ext := hopen.trans hc.closed_ext
    newEncoding := henc.trans hc.newEncoding
    apart := by
      show (allRanges g c cur.sectors w.storage).Pairwise Apart
      rw [hsec]
      exact hc.apart
    bounded := by
      show ∀ r ∈ allRanges g c cur.sectors w.storage, r.start < r.end ∧ r.end < 2 ^ 63
      rw [hsec]
      exact hc.bounded
    fits := hc.fits }

/-- `log_flush` under the invariant: the staged entries go out, or the log fails within one of
    them, and the current extension is on disk after it. -/
theorem logFlush_spec (hg : g.Valid) {w : World} {c : Chain} (h : Holds g fs w c) :
    ∃ w' c', logFlush g fs w = some w' ∧ Holds g fs w' c' ∧ w'.entries = w.entries ∧
      w'.log.dirty = false := by
  by_cases hd : w.log.dirty = false
  · -- nothing to flush
    have hnc : w.log.state ≠ .compacting := by
      rcases h.carries with ⟨hs, _⟩ | ⟨hs, _⟩ <;> rw [hs] <;> decide
    exact ⟨w, c, by rw [logFlush, if_pos ⟨hd, hnc⟩], h, rfl, hd⟩
  -- a dirty log is live
  obtain ⟨hst, n, hn, hcut, hts, hlens⟩ : w.log.state = .linked ∧ Live w c.stream := by
    rcases h.carries with h' | ⟨_, hd', _⟩
    · exact h'
    · exact absurd hd' hd
  have hnc : ¬w.log.state = .compacting := by rw [hst]; decide
  obtain ⟨w₁, ok, c₁, hrun, hc₁, hk₁, hres⟩ := writeEntries_spec hg (w.entries.drop n) h.core hts
    fun e he => have h' := h.entries e (List.mem_of_mem_drop he); ⟨h'.1, by omega⟩
  rw [logFlush, if_neg (fun h' => hd h'.1), if_neg hnc, logWriteInternal, hlens, hrun]
  cases ok with
  | true =>
    -- every staged entry went out, and the current extension with them
    obtain ⟨-, hts₁, segs, hcutd, hstr⟩ :=
      hres.resolve_right (fun h' => Bool.false_ne_true h'.1.symm)
    obtain ⟨disk', cur, hfl, hsec, hc', hon⟩ :=
      (hc₁.congr { w₁ with log := { w₁.log with encodingLengths := [] } } rfl rfl rfl).flush
    have hfl' : flushLogExtension g w₁.disk w₁.log.current false = some (disk', cur) := hfl
    simp only [↓reduceIte, hfl', Option.map_some]
    refine ⟨_, c₁, rfl, ⟨hc'.congr _ rfl rfl rfl, Or.inl ⟨hk₁.state.trans hst, ?_⟩, fun _ _ => ?_,
      ?_, fun _ => ⟨hk₁.state.trans hst, hts₁⟩⟩, hk₁.entries, rfl⟩
    · refine ⟨w₁.entries.length, le_refl _, ?_, ?_, ?_⟩
      · rw [List.take_length, hk₁.entries, hstr, ← List.take_append_drop n w.entries]
        exact hcut.append hcutd
      · simp only [hts₁, List.drop_length, List.flatten_nil]
      · simp only [List.drop_length, List.map_nil]
    · show OnDisk g fs disk' cur.sectors c₁.segs [endOfLog]
      rw [hsec]
      exact hon
    · rw [hk₁.entries]
      exact h.entries
  | false =>
    -- the log failed within an entry: the current extension goes out all the same
    obtain ⟨-, m, e, cs, segs, hm, hshort, hstr⟩ :=
      hres.resolve_left (fun h' => Bool.false_ne_true h'.1)
    obtain ⟨disk', cur, hfl, hsec, hc', hon⟩ :=
      (hc₁.congr { w₁ with log := { w₁.log with state := .failed } } rfl rfl rfl).flush
    have hfl' : flushLogExtension g w₁.disk w₁.log.current false = some (disk', cur) := hfl
    simp only [Bool.false_eq_true, ↓reduceIte, hfl', Option.map_some]
    have hne : w.entries ≠ [] := by
      intro h'
      rw [h', List.drop_nil, List.getElem?_nil] at hm
      cases hm
    refine ⟨_, c₁, rfl, ⟨hc'.congr _ rfl rfl rfl, Or.inr ⟨rfl, rfl, ?_⟩, fun _ _ => ?_,
      ?_, fun h' => absurd (hk₁.entries.symm.trans h') hne⟩, hk₁.entries, rfl⟩
    · refine ⟨n + m, e, cs, ?_, ?_⟩
      · rw [hk₁.entries, ← List.getElem?_drop]
        exact hm
      · rw [hk₁.entries, List.take_add, hstr]
        exact hshort.cut_append hcut
    · show OnDisk g fs disk' cur.sectors c₁.segs [endOfLog]
      rw [hsec]
      exact hon
    · rw [hk₁.entries]
      exact h.entries

/-- `log_set_dirty` of a live log that has taken an entry: it flushes when the staged entries
    fill an extension. -/
theorem logSetDirty_spec (hg : g.Valid) {w : World} {c : Chain} (hc : Core g fs w c)
    (hst : w.log.state = .linked) (hlive : Live w c.stream)
    (hent : ∀ e ∈ w.entries, e ≠ [] ∧ e.length < 2 ^ 32) (hne : w.entries ≠ []) :
    ∃ w' c', logSetDirty g fs w = some w' ∧ Holds g fs w' c' ∧ w'.entries = w.entries := by
  have hd : Holds g fs { w with log := { w.log with dirty := true } } c :=
    ⟨hc.congr _ rfl rfl rfl, Or.inl ⟨hst, hlive⟩, fun h _ => by simp at h, hent,
      fun h => absurd h hne⟩
  unfold logSetDirty
  dsimp only
  split
  · obtain ⟨w', c', hf, hw', he, -⟩ := logFlush_spec hg hd
    exact ⟨w', c', hf, hw', he⟩
  · exact ⟨_, c, rfl, hd, rfl⟩

theorem ne_nil_of_prefix {α : Type} {l₁ l₂ : List α} (hne : l₁ ≠ []) (h : l₁ <+: l₂) : l₂ ≠ [] :=
  fun h₂ => hne (List.prefix_nil.1 (h₂ ▸ h))

/-- `log_write` under the invariant: a live log takes the entry and stages it, flushing when the
    staged entries fill an extension; a failed log, or one with too much staged, refuses it.
    Either way the log has taken an entry by now. -/
theorem logWrite_spec (hg : g.Valid) {w : World} {c : Chain} (h : Holds g fs w c) {e : List ℕ}
    (he : e ≠ [] ∧ e.length < 2 ^ 32) :
    ∃ w' c' ok, logWrite g fs w e = some (w', ok) ∧ Holds g fs w' c' ∧
      w.entries <+: w'.entries ∧ w'.entries ≠ [] := by
  unfold logWrite
  split
  · -- refused: the log has taken an entry before, since an empty log is live with nothing staged
    rename_i hrej
    refine ⟨w, c, false, rfl, h, List.prefix_refl _, fun h0 => ?_⟩
    obtain ⟨hs, hts⟩ := h.empty h0
    rw [hs, hts] at hrej
    simp [tfsLogMaxTupleStagingBytes] at hrej
  · rename_i hacc
    rw [not_or] at hacc
    obtain ⟨hst, n, hn, hcut, hts, hlens⟩ : w.log.state = .linked ∧ Live w c.stream := by
      rcases h.carries with h' | ⟨hs, _⟩
      · exact h'
      · exact absurd hs hacc.1
    -- the entry is staged after the others
    have hlive : Live { w with
        log := { w.log with
          tupleStaging := w.log.tupleStaging ++ e
          encodingLengths := w.log.encodingLengths ++ [e.length] }
        entries := w.entries ++ [e] } c.stream := by
      refine ⟨n, by simp only [List.length_append]; omega, ?_, ?_, ?_⟩
      · show Cut ((w.entries ++ [e]).take n) c.stream
        rw [List.take_append_of_le_length hn]
        exact hcut
      · show w.log.tupleStaging ++ e = ((w.entries ++ [e]).drop n).flatten
        rw [List.drop_append_of_le_length hn, List.flatten_append, hts, List.flatten_singleton]
      · show w.log.encodingLengths ++ [e.length] = ((w.entries ++ [e]).drop n).map List.length
        rw [List.drop_append_of_le_length hn, List.map_append, hlens, List.map_singleton]
    obtain ⟨w', c', hsd, hw', hent'⟩ :=
      logSetDirty_spec hg (h.core.congr _ (by rfl) (by rfl) (by rfl)) (by exact hst) hlive
      (fun x hx => (List.mem_append.1 hx).elim (h.entries x) fun hx' => by
        rw [List.mem_singleton.1 hx']
        exact he)
      (List.append_ne_nil_of_right_ne_nil _ (List.cons_ne_nil e []))
    refine ⟨w', c', decide (w'.log.state ≠ .failed), by simp only [hsd, Option.map_some], hw', ?_,
      ?_⟩
    · rw [hent']
      exact List.prefix_append _ _
    · rw [hent']
      exact List.append_ne_nil_of_right_ne_nil _ (List.cons_ne_nil e [])

/-- The step lemma: a write or a flush keeps the invariant, only adds entries, and after a
    write the log has taken an entry. -/
theorem step_spec (hg : g.Valid) {w : World} {c : Chain} (h : Holds g fs w c) (a : Action)
    (ha : ∀ e, a = .write e → e ≠ [] ∧ e.length < 2 ^ 32) :
    ∃ w' c', step g fs w a = some w' ∧ Holds g fs w' c' ∧ w.entries <+: w'.entries ∧
      ∀ e, a = .write e → w'.entries ≠ [] := by
  cases a with
  | write e =>
    obtain ⟨w', c', ok, hw, h', hp, hne⟩ := logWrite_spec hg h (ha e rfl)
    exact ⟨w', c', by rw [step, hw, Option.map_some], h', hp, fun _ _ => hne⟩
  | flush =>
    obtain ⟨w', c', hf, h', he, -⟩ := logFlush_spec hg h
    exact ⟨w', c', hf, h', he ▸ List.prefix_refl _, fun _ h => Action.noConfusion h⟩

/-- The run lemma: from a log where the invariant holds, every run of writes of entries that
    are not empty nor too long goes through and keeps it; the log only gains entries, and has
    taken one once the run wrote. The induction is on the actions. -/
theorem run_spec (hg : g.Valid) :
    ∀ (ops : List Action) {w : World} {c : Chain}, Holds g fs w c →
      (∀ e, Action.write e ∈ ops → e ≠ [] ∧ e.length < 2 ^ 32) →
      ∃ w' c', run (step g fs) w ops = some w' ∧ Holds g fs w' c' ∧ w.entries <+: w'.entries ∧
        ((∃ e, Action.write e ∈ ops) → w'.entries ≠ [])
  | [], w, c, h, _ =>
    ⟨w, c, rfl, h, List.prefix_refl _, fun ⟨_, he⟩ => absurd he List.not_mem_nil⟩
  | a :: ops, w, c, h, hops => by
    obtain ⟨w₁, c₁, hs, h₁, hp₁, hne₁⟩ :=
      step_spec hg h a fun e he => hops e (he ▸ List.mem_cons_self)
    obtain ⟨w', c', hr, h', hp', hne'⟩ :=
      run_spec hg ops h₁ fun e he => hops e (List.mem_cons_of_mem a he)
    refine ⟨w', c', by rw [run_cons, hs, Option.bind_some, hr], h', hp₁.trans hp', ?_⟩
    rintro ⟨e, he⟩
    rcases List.mem_cons.1 he with rfl | he
    · exact ne_nil_of_prefix (hne₁ e rfl) hp'
    · exact hne' ⟨e, he⟩

/-- Storage for a new log: it keeps no offset reserved and gives two at least, and the extensions
    it may give are apart from each other and from the first one, and their sectors fit in
    varints. -/
structure Fresh (g : Geometry) (s : Storage) : Prop where
  extend_none : s.nextExtendLogOffset = none
  new_none : s.nextNewLogOffset = none
  two : ∃ a₁ a₂ rest, s.answers = some a₁ :: some a₂ :: rest
  apart : (initRange g :: s.pending.map (fun a => irangel a g.logBlocks)).Pairwise Apart
  bounded : ∀ a ∈ s.pending, a + g.logBlocks < 2 ^ 63

theorem fresh_default : Fresh defaultGeometry ⟨[some 8, some 2048, some 4096], none, none⟩ :=
  ⟨rfl, rfl, ⟨_, _, _, rfl⟩, by decide, by decide⟩

theorem writes_default :
    ∀ e, Action.write e ∈ [Action.write [1, 2, 3], .flush] → e ≠ [] ∧ e.length < 2 ^ 32 := by
  intro e he
  rcases List.mem_cons.1 he with h | h
  · cases h
    decide
  · simp at h

/-- What fresh storage gives `log_create`: the first two answers fill the two offsets and the
    first is taken for the new extension; that extension, the first one and the offsets still
    pending are apart and bounded. -/
theorem Fresh.reserve (hg : g.Valid) {storage : Storage} (hs : Fresh g storage) :
    ∃ a₁ a₂ rest s₃, storage = ⟨some a₁ :: some a₂ :: rest, none, none⟩ ∧
      reserveLogSpace ⟨rest, some a₂, some a₁⟩ .new true = (s₃, some a₁) ∧
      (initRange g :: irangel a₁ g.logBlocks ::
        s₃.pending.map (fun a => irangel a g.logBlocks)).Pairwise Apart ∧
      ∀ x ∈ initRange g :: irangel a₁ g.logBlocks :: s₃.pending.map (fun a => irangel a g.logBlocks),
        x.start < x.end ∧ x.end < 2 ^ 63 := by
  obtain ⟨a₁, a₂, rest, hans⟩ := hs.two
  obtain ⟨answers, ne, nn⟩ := storage
  obtain rfl : ne = none := hs.extend_none
  obtain rfl : nn = none := hs.new_none
  obtain rfl : answers = some a₁ :: some a₂ :: rest := hans
  obtain ⟨s₃, h₃⟩ : ∃ s₃, reserveLogSpace ⟨rest, some a₂, some a₁⟩ .new true = (s₃, some a₁) :=
    ⟨_, rfl⟩
  -- the offsets pending at first are those left, with the one taken
  have hperm : Storage.pending ⟨some a₁ :: some a₂ :: rest, none, none⟩ |>.Perm (a₁ :: s₃.pending) := by
    have h := reserveLogSpace_pending ⟨rest, some a₂, some a₁⟩ .new true
    rw [h₃] at h
    refine List.Perm.trans ?_ h
    simp only [Storage.pending, Option.toList_some, Option.toList_none, List.nil_append,
      List.cons_append]
    exact List.Perm.swap _ _ _
  have hall := (hperm.map fun a => irangel a g.logBlocks).cons (initRange g)
  refine ⟨a₁, a₂, rest, s₃, rfl, h₃, (hall.pairwise_iff (fun h => Apart.symm h)).1 hs.apart, ?_⟩
  intro x hx
  rcases List.mem_cons.1 (hall.symm.subset hx) with rfl | hx
  · have := pos_of_room hg.initial_room
    have := hg.initial_lt
    simp only [initRange, irangel]
    omega
  · obtain ⟨a, ha, rfl⟩ := List.mem_map.1 hx
    have := hs.bounded a ha
    have := pos_of_room hg.extension_room
    simp only [irangel]
    omega

/-- The world `log_create` returns holds the invariant: the first extension closed with a link to
    the current one, which holds its header alone, and no entry. -/
theorem Holds.created {disk : ℕ → ℕ} {ext : LogExt} {s : Storage}
    (hlink : OnDisk g fs disk (initRange g) [] (linkFrame ext.sectors))
    (hst : Staged g disk ext (hdrBytes fs ext.sectors))
    (hroom : (hdrBytes fs ext.sectors).length + 20 ≤ logSize g ext)
    (hopen : ext.isOpen = false) (henc : ext.oldEncoding = false)
    (hap : (initRange g :: ext.sectors ::
      s.pending.map (fun a => irangel a g.logBlocks)).Pairwise Apart)
    (hb : ∀ x ∈ initRange g :: ext.sectors :: s.pending.map (fun a => irangel a g.logBlocks),
      x.start < x.end ∧ x.end < 2 ^ 63) :
    Holds g fs ⟨⟨ext, [], [], false, .linked⟩, disk, s, []⟩ ⟨[(initRange g, [])], []⟩ := by
  have hlinked : Linked g fs disk [(initRange g, [])] ext.sectors :=
    show OnDisk g fs disk (initRange g) [] (linkFrame ext.sectors) ∧ True from ⟨hlink, trivial⟩
  have hst' : Staged g disk ext (hdrBytes fs ext.sectors ++ frames []) := by
    rwa [frames_nil, List.append_nil]
  have hroom' : (hdrBytes fs ext.sectors ++ frames []).length + 20 ≤ logSize g ext := by
    rwa [frames_nil, List.append_nil]
  exact ⟨⟨rfl, hlinked, hst', hroom', hopen, henc, hap, hb, fun _ h => absurd h List.not_mem_nil⟩,
    .inl ⟨rfl, 0, Nat.zero_le _, .nil, rfl, rfl⟩, fun _ h => absurd rfl h,
    fun _ h => absurd h List.not_mem_nil, fun _ => ⟨rfl, rfl⟩⟩

/-- `log_create` of a new filesystem: the first extension is on disk with its header and a link
    to a new one, which holds its header, and the invariant holds with no entry. -/
theorem logCreate_spec (hg : g.Valid) (disk : ℕ → ℕ) {storage : Storage} (hs : Fresh g storage) :
    ∃ w₀, logCreate g fs disk storage = some (some w₀) ∧ Holds g fs w₀ ⟨[(initRange g, [])], []⟩ ∧
      w₀.entries = [] := by
  obtain ⟨a₁, a₂, rest, s₃, rfl, h₃, hap, hb⟩ := hs.reserve hg
  set r := irangel a₁ g.logBlocks with hr_def
  have hrb := hb r (List.mem_cons_of_mem _ List.mem_cons_self)
  have hr_apart : Apart (initRange g) r := List.rel_of_pairwise_cons hap List.mem_cons_self
  have hr0 : r.start ≠ 0 := start_ne_zero_of_apart hg hrb.1 hr_apart
  have hspan : rangeSpan r = g.logBlocks := rangeSpan_irangel _ _
  have hsi : rangeSpan (initRange g) = g.initialSize >>> g.blocksizeOrder := rangeSpan_irangel _ _
  have hinit_room := hg.initial_room
  have hext_room := hg.extension_room
  -- the headers: at most 66 bytes for the first extension, 17 for a later one
  have hhdr₀ : (hdrBytes fs (initRange g)).length ≤ 66 := by
    have := length_hdrBytes_le fs (show rangeSpan (initRange g) < 2 ^ 63 by rw [hsi]; exact hg.initial_lt)
    rwa [if_pos (show (initRange g).start = 0 from rfl)] at this
  have hhdr : (hdrBytes fs r).length ≤ 17 := by
    have := length_hdrBytes_le fs (show rangeSpan r < 2 ^ 63 by unfold rangeSpan; omega)
    rwa [if_neg hr0] at this
  obtain ⟨initExt, hinit, hsec₀, -, -, hst₀⟩ := Staged.fresh fs g disk (initRange g) (by
    rw [hsi]
    omega)
  obtain ⟨newExt, hnew, hsec, hopen, henc, hst⟩ := Staged.fresh fs g disk r (by
    rw [hspan]
    omega)
  -- `log_extend_link` of the first extension to the new one, released by its flush
  have hroom₀ : (hdrBytes fs (initRange g)).length + 20 ≤ logSize g initExt := by
    rw [logSize, hsec₀, hsi]
    omega
  obtain ⟨b₁, b₂, b₃, disk', ext', hb₁, hb₂, hb₃, hfl, hpre, hframe⟩ :=
    hst₀.link hroom₀ (show r.start < 2 ^ 63 by omega) (show rangeSpan r < 2 ^ 63 by unfold rangeSpan; omega)
  rw [logSize, hsec₀] at hpre
  rw [hsec₀] at hframe
  -- the first two reservations only fill the two offsets
  have h₁ : reserveLogSpace ⟨some a₁ :: some a₂ :: rest, none, none⟩ .new false =
      (⟨some a₂ :: rest, none, some a₁⟩, some a₁) := rfl
  have h₂ : reserveLogSpace ⟨some a₂ :: rest, none, some a₁⟩ .extend false =
      (⟨rest, some a₂, some a₁⟩, some a₂) := rfl
  have hinit' : logExtensionInit fs (initialExtension g) = some initExt := hinit
  refine ⟨⟨⟨newExt, [], [], false, .linked⟩, disk', s₃, []⟩, ?_, ?_, rfl⟩
  · simp only [logCreate, h₁, h₂, h₃, hinit', ← hr_def, hnew, hsec, hb₁, hb₂, hb₃, hfl,
      Option.bind_eq_bind, Option.bind_some, Option.pure_def]
  -- the new extension is apart from the first, so the flush of the first leaves it staged
  have hext : newExt.sectors.start ≤ newExt.sectors.end := by
    rw [hsec]
    omega
  have hst' : Staged g disk' newExt (hdrBytes fs newExt.sectors) := by
    rw [hsec]
    exact hst.of_frame (by rw [logSize, hsec, hspan]; omega) hframe (Nat.zero_le _) hext
      (hsec ▸ hr_apart)
  refine Holds.created (by rw [hsec]; simpa only [OnDisk, frames_nil, List.append_nil] using hpre)
    hst' ?_ hopen henc (hsec ▸ hap) (hsec ▸ hb)
  rw [logSize, hsec, hspan]
  omega

/-- The log `log_create` makes for a new filesystem takes any run of writes of entries and
    flushes: every call returns, the invariant holds after it, and once an entry has been
    written the log is not empty. -/
theorem logCreate_run_holds (hg : g.Valid) (disk : ℕ → ℕ) {storage : Storage}
    (hs : Fresh g storage) (ops : List Action)
    (hops : ∀ e, Action.write e ∈ ops → e ≠ [] ∧ e.length < 2 ^ 32) :
    ∃ w₀ w c, logCreate g fs disk storage = some (some w₀) ∧ run (step g fs) w₀ ops = some w ∧
      Holds g fs w c ∧ ((∃ e, Action.write e ∈ ops) → w.entries ≠ []) := by
  obtain ⟨w₀, hcreate, hholds, -⟩ := logCreate_spec hg disk hs
  obtain ⟨w, c, hrun, h, -, hne⟩ := run_spec hg ops hholds hops
  exact ⟨w₀, w, c, hcreate, hrun, h, hne⟩

/-- The default geometry, three extensions' worth of storage, and a write then a flush. -/
theorem logCreate_run_holds_default :
    defaultGeometry.Valid ∧
    Fresh defaultGeometry ⟨[some 8, some 2048, some 4096], none, none⟩ ∧
    ∃ w₀ w c, logCreate defaultGeometry ⟨List.replicate uuidLen 0, List.length_replicate, []⟩
        (fun _ => 0) ⟨[some 8, some 2048, some 4096], none, none⟩ = some (some w₀) ∧
      run (step defaultGeometry ⟨List.replicate uuidLen 0, List.length_replicate, []⟩) w₀
        [.write [1, 2, 3], .flush] = some w ∧
      Holds defaultGeometry ⟨List.replicate uuidLen 0, List.length_replicate, []⟩ w c ∧
      ((∃ e, Action.write e ∈ [Action.write [1, 2, 3], .flush]) → w.entries ≠ []) := by
  have hg : defaultGeometry.Valid := by decide
  exact ⟨hg, fresh_default, logCreate_run_holds hg _ fresh_default _ writes_default⟩

end Steps

/-! ## Reading back what the writer put -/

section Reading

variable {D : Type} {decode : Bool → D → List ℕ → Option (D × List ℕ)} {old : Bool}

theorem DecodeChain.take {d d'' : D} {es : List (List ℕ)} (h : DecodeChain decode old d es d'') :
    ∀ n, ∃ d', DecodeChain decode old d (es.take n) d' := by
  induction h with
  | nil d =>
    intro n
    exact ⟨d, by rw [List.take_nil]; exact .nil d⟩
  | cons he _ ih =>
    intro n
    cases n with
    | zero => exact ⟨_, .nil _⟩
    | succ n =>
      obtain ⟨d', hd'⟩ := ih n
      exact ⟨d', .cons he hd'⟩

variable {g : Geometry} {fs : Fs} {w : World} {c : Chain}

theorem Holds.chainOnDisk (h : Holds g fs w c) (hdirty : w.log.dirty = false)
    (hne : w.entries ≠ []) :
    ∃ xs, c.closed = (initRange g, []) :: xs ∧
      ChainOnDisk g fs w.disk (initRange g, []) (xs ++ [(w.log.current.sectors, c.segs)]) := by
  obtain ⟨xs, hxs⟩ := List.head?_eq_some_iff.1 h.core.head
  have hlinked := h.core.linked
  rw [hxs] at hlinked
  exact ⟨xs, hxs, Linked.chainOnDisk (h.synced hdirty hne) _ xs hlinked⟩

theorem fst_mem_of_mem {closed : List (Range × List Seg)} {cur : Range} {segs : List Seg}
    (l : List Range) {y : Range × List Seg} (hy : y ∈ closed ++ [(cur, segs)]) :
    y.1 ∈ closed.map Prod.fst ++ cur :: l := by
  rcases List.mem_append.1 hy with hy | hy
  · exact List.mem_append_left _ (List.mem_map_of_mem hy)
  · rw [List.mem_singleton] at hy
    subst hy
    exact List.mem_append_right _ List.mem_cons_self

theorem Holds.extFits (h : Holds g fs w c) :
    ∀ y ∈ c.closed ++ [(w.log.current.sectors, c.segs)], ExtFits y := by
  intro y hy
  have hseg : ∀ s ∈ y.2, s ∈ c.stream := by
    rcases List.mem_append.1 hy with hy | hy
    · exact fun s hs => List.mem_append_left _ (List.mem_flatMap.2 ⟨y, hy, hs⟩)
    · rw [List.mem_singleton] at hy
      subst hy
      exact fun s hs => List.mem_append_right _ hs
  have hb := h.core.bounded y.1 (fst_mem_of_mem _ hy)
  refine ⟨hb.1, by omega, fun s hs => ?_⟩
  have hf := h.core.fits s (hseg s hs)
  exact ⟨by omega, by omega⟩

theorem Holds.start_ne_zero (hg : g.Valid) (h : Holds g fs w c) {xs : List (Range × List Seg)}
    (hxs : c.closed = (initRange g, []) :: xs) :
    ∀ y ∈ xs ++ [(w.log.current.sectors, c.segs)], y.1.start ≠ 0 := by
  have hap := h.core.apart
  have hb := h.core.bounded
  rw [allRanges, hxs, List.map_cons, List.cons_append] at hap hb
  intro y hy
  have hmem := fst_mem_of_mem (w.storage.pending.map (fun a => irangel a g.logBlocks)) hy
  exact start_ne_zero_of_apart hg (hb y.1 (List.mem_cons_of_mem _ hmem)).1
    (List.rel_of_pairwise_cons hap hmem)

/-- What `log_read` finds on the disk of a synced log: it reads to the end without an error,
    takes the filesystem's uuid and label from the first extension, and leaves its decoder where
    the decoder stands after the first entries the chain carries; the entries after them are
    still staged, unless the log has failed. -/
theorem Holds.readBack (hg : g.Valid) (hl : LabelReads fs.label) (h : Holds g fs w c)
    (hdirty : w.log.dirty = false) (hne : w.entries ≠ []) {d₀ d : D}
    (hd : DecodeChain decode false d₀ w.entries d) :
    ∃ n d', n ≤ w.entries.length ∧ DecodeChain decode false d₀ (w.entries.take n) d' ∧
      (w.log.state = .failed ∨ w.log.tupleStaging = (w.entries.drop n).flatten) ∧
      ∃ fuel₀, ∀ fuel, fuel₀ ≤ fuel → ∃ res, logReadCreate decode g w.disk fuel d₀ = some (.ok res) ∧
        res.reader.dec = d' ∧ res.uuid = some fs.uuid ∧
        res.label = some (labelString fs.label ++ [0]) := by
  obtain ⟨xs, hxs, hchain⟩ := h.chainOnDisk hdirty hne
  have hstream : ((initRange g, []) :: (xs ++ [(w.log.current.sectors, c.segs)])).flatMap
      Prod.snd = c.stream := by
    simp only [Chain.stream, hxs, List.flatMap_cons, List.flatMap_append, List.flatMap_nil,
      List.nil_append, List.append_nil]
  -- the segments take the reader through the first entries the chain carries
  obtain ⟨n, d', hn, hd', hstaged, r', hfeeds, hr'⟩ : ∃ n d', n ≤ w.entries.length ∧
      DecodeChain decode false d₀ (w.entries.take n) d' ∧
      (w.log.state = .failed ∨ w.log.tupleStaging = (w.entries.drop n).flatten) ∧
      ∃ r', Feeds decode false ⟨d₀, [], 0⟩ c.stream r' ∧ r'.dec = d' := by
    rcases h.carries with ⟨-, n, hn, hcut, hts, -⟩ | ⟨hfail, -, n, e, cs, hget, hcs⟩
    · obtain ⟨d', hd'⟩ := hd.take n
      exact ⟨n, d', hn, hd', .inr hts, _, feeds_cut hcut hd', rfl⟩
    · obtain ⟨d', hd'⟩ := hd.take n
      have hn : n < w.entries.length := (List.getElem?_eq_some_iff.1 hget).1
      exact ⟨n, d', hn.le, hd', .inl hfail, feeds_cutShort hcs hd'⟩
  refine ⟨n, d', hn, hd', hstaged, (xs ++ [(w.log.current.sectors, c.segs)]).length + 1,
    fun fuel hfuel => ?_⟩
  have hfit : ∀ y ∈ (initRange g, []) :: (xs ++ [(w.log.current.sectors, c.segs)]), ExtFits y := by
    intro y hy
    apply h.extFits y
    rw [hxs, List.cons_append]
    exact hy
  obtain ⟨res, hres, hdec, huuid, hlabel⟩ := logRead_chain g fs w.disk hl _ _ ⟨d₀, [], 0⟩ r'
    none none fuel hchain hfit (h.start_ne_zero hg hxs) (hstream ▸ hfeeds) (by omega)
  exact ⟨res, hres, hdec.trans hr', huuid.trans (if_pos rfl), hlabel.trans (if_pos rfl)⟩

/-- After `log_create` of a new filesystem whose label the reader takes, any run of writes and a
    flush, `log_read` of the disk reads to the end without an error, finds the filesystem's uuid
    and label, and decodes the first entries written, in order; the entries it does not reach
    are still staged, unless the log has failed. -/
theorem logCreate_run_logRead (hg : g.Valid) (hl : LabelReads fs.label) (disk : ℕ → ℕ)
    {storage : Storage} (hs : Fresh g storage) (ops : List Action)
    (hops : ∀ e, Action.write e ∈ ops → e ≠ [] ∧ e.length < 2 ^ 32)
    (hw : ∃ e, Action.write e ∈ ops) :
    ∃ w₀ w, logCreate g fs disk storage = some (some w₀) ∧
      run (step g fs) w₀ (ops ++ [.flush]) = some w ∧ w.entries ≠ [] ∧
      ∀ (decode : Bool → D → List ℕ → Option (D × List ℕ)) (d₀ d : D),
        DecodeChain decode false d₀ w.entries d →
        ∃ n d', n ≤ w.entries.length ∧ DecodeChain decode false d₀ (w.entries.take n) d' ∧
          (w.log.state = .failed ∨ w.log.tupleStaging = (w.entries.drop n).flatten) ∧
          ∃ fuel₀, ∀ fuel, fuel₀ ≤ fuel → ∃ res,
            logReadCreate decode g w.disk fuel d₀ = some (.ok res) ∧ res.reader.dec = d' ∧
            res.uuid = some fs.uuid ∧ res.label = some (labelString fs.label ++ [0]) := by
  obtain ⟨w₀, hcreate, hholds, -⟩ := logCreate_spec hg disk hs
  obtain ⟨w₁, c₁, hrun, h₁, -, hne⟩ := run_spec hg ops hholds hops
  obtain ⟨w, c, hflush, h, hent, hdirty⟩ := logFlush_spec hg h₁
  have hne' : w.entries ≠ [] := hent ▸ hne hw
  refine ⟨w₀, w, hcreate, ?_, hne', fun _ _ _ hd => h.readBack hg hl hdirty hne' hd⟩
  simp only [run_append, hrun, Option.bind_some, run_cons, step, hflush, run_nil]

/-- The default geometry, an empty label, three extensions' worth of storage and one write. -/
theorem logCreate_run_logRead_default :
    defaultGeometry.Valid ∧ LabelReads [] ∧
    Fresh defaultGeometry ⟨[some 8, some 2048, some 4096], none, none⟩ ∧
    ∃ w₀ w, logCreate defaultGeometry ⟨List.replicate uuidLen 0, List.length_replicate, []⟩
        (fun _ => 0) ⟨[some 8, some 2048, some 4096], none, none⟩ = some (some w₀) ∧
      run (step defaultGeometry ⟨List.replicate uuidLen 0, List.length_replicate, []⟩) w₀
        [.write [1, 2, 3], .flush] = some w ∧ w.entries ≠ [] ∧
      ∀ (decode : Bool → ℕ → List ℕ → Option (ℕ × List ℕ)) (d₀ d : ℕ),
        DecodeChain decode false d₀ w.entries d →
        ∃ n d', n ≤ w.entries.length ∧ DecodeChain decode false d₀ (w.entries.take n) d' ∧
          (w.log.state = .failed ∨ w.log.tupleStaging = (w.entries.drop n).flatten) ∧
          ∃ fuel₀, ∀ fuel, fuel₀ ≤ fuel → ∃ res,
            logReadCreate decode defaultGeometry w.disk fuel d₀ = some (.ok res) ∧
            res.reader.dec = d' ∧ res.uuid = some (List.replicate uuidLen 0) ∧
            res.label = some (labelString [] ++ [0]) := by
  have hg : defaultGeometry.Valid := by decide
  have hl : LabelReads [] := by decide
  refine ⟨hg, hl, fresh_default, logCreate_run_logRead hg hl _ fresh_default [.write [1, 2, 3]]
    (fun e he => ?_) ⟨[1, 2, 3], List.mem_singleton_self _⟩⟩
  rw [List.mem_singleton] at he
  cases he
  decide

end Reading

end Nanos.Tlog
