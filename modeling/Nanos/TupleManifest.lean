import Nanos.TupleParser
import Mathlib.Data.List.Basic

set_option autoImplicit false

/-!
# The manifest text of a value, and what the tuple parser makes of it

The manifest of a value: a string between double quotes, with a backslash before `"` and `\`; a
tuple as `(`, its `"name":value` attributes apart by single spaces, and `)`; a vector as `[`, its
elements apart by spaces, and `]`. `parser_feed` decodes it as UTF-8, and a quoted string pushes
the characters back as UTF-8, so a string comes back only when it is the UTF-8 text of its
characters (`string_high_byte`). For a value whose strings are text, whose tuples have distinct
names and whose vectors no empty slot (`Value.Wf`), the parser finishes that value once and
returns to its start (`manifest_round_trip`).
-/

namespace Nanos.TupleParser

open Nanos.Utf8

/-! ## The manifest -/

/-- A backslash before `"` and `\`. -/
def escapeByte (b : UInt8) : List UInt8 := if b = 34 ∨ b = 92 then [92, b] else [b]

/-- A string between double quotes. -/
def quote (s : List UInt8) : List UInt8 := 34 :: s.flatMap escapeByte ++ [34]

mutual
def Value.manifest : Value → List UInt8
  | .string s => quote s
  | .tuple t => 40 :: t.manifest
  | .vector v => 91 :: v.manifest

/-- The attributes of a tuple after its `(`, and the `)`. -/
def Entries.manifest : Entries → List UInt8
  | .nil => [41]
  | .cons name v rest => quote name ++ 58 :: v.manifest ++ rest.manifestAfter

/-- The attributes after the first, each after a space, and the `)`. -/
def Entries.manifestAfter : Entries → List UInt8
  | .nil => [41]
  | .cons name v rest => 32 :: quote name ++ 58 :: v.manifest ++ rest.manifestAfter

/-- The elements of a vector after its `[`, and the `]`. An empty slot has no text. -/
def Elems.manifest : Elems → List UInt8
  | .nil => [93]
  | .cons v rest => v.manifest ++ rest.manifestAfter
  | .hole rest => rest.manifest

/-- The elements after the first, each after a space, and the `]`. -/
def Elems.manifestAfter : Elems → List UInt8
  | .nil => [93]
  | .cons v rest => 32 :: v.manifest ++ rest.manifestAfter
  | .hole rest => rest.manifestAfter
end

mutual
/-- The values the manifest is written for: every string and name is UTF-8 text, the names of
    a tuple are distinct, as in a table, and a vector has no empty slot. -/
def Value.Wf : Value → Prop
  | .string s => IsText s
  | .tuple t => t.Wf
  | .vector v => v.Wf

def Entries.Wf : Entries → Prop
  | .nil => True
  | .cons name v rest => IsText name ∧ name ∉ rest.names ∧ v.Wf ∧ rest.Wf

def Elems.Wf : Elems → Prop
  | .nil => True
  | .cons v rest => v.Wf ∧ rest.Wf
  | .hole _ => False
end

mutual
def Value.decWf : (v : Value) → Decidable v.Wf
  | .string s => inferInstanceAs (Decidable (IsText s))
  | .tuple t => Entries.decWf t
  | .vector v => Elems.decWf v

def Entries.decWf : (t : Entries) → Decidable t.Wf
  | .nil => isTrue trivial
  | .cons name v rest =>
    haveI := Value.decWf v
    haveI := Entries.decWf rest
    inferInstanceAs (Decidable (IsText name ∧ name ∉ rest.names ∧ v.Wf ∧ rest.Wf))

def Elems.decWf : (v : Elems) → Decidable v.Wf
  | .nil => isTrue trivial
  | .cons x rest =>
    haveI := Value.decWf x
    haveI := Elems.decWf rest
    inferInstanceAs (Decidable (x.Wf ∧ rest.Wf))
  | .hole _ => isFalse id
end

instance : DecidablePred Value.Wf := Value.decWf

/-! ## The characters of the manifest -/

/-- A backslash before `"` and `\`, among characters. -/
def escapeChar (c : ℕ) : List ℕ := if c = 34 ∨ c = 92 then [92, c] else [c]

/-- The characters of a quoted string. -/
def quoteText (s : List UInt8) : List ℕ := 34 :: (stringCharacters s).flatMap escapeChar ++ [34]

mutual
/-- The characters the parser reads from the manifest of a value. -/
def Value.text : Value → List ℕ
  | .string s => quoteText s
  | .tuple t => 40 :: t.text
  | .vector v => 91 :: v.text

def Entries.text : Entries → List ℕ
  | .nil => [41]
  | .cons name v rest => quoteText name ++ 58 :: v.text ++ rest.textAfter

def Entries.textAfter : Entries → List ℕ
  | .nil => [41]
  | .cons name v rest => 32 :: quoteText name ++ 58 :: v.text ++ rest.textAfter

def Elems.text : Elems → List ℕ
  | .nil => [93]
  | .cons v rest => v.text ++ rest.textAfter
  | .hole rest => rest.text

def Elems.textAfter : Elems → List ℕ
  | .nil => [93]
  | .cons v rest => 32 :: v.text ++ rest.textAfter
  | .hole rest => rest.textAfter
end

/-- Escaping the bytes of a character is encoding its escaped characters: a character from `0x80`
    on has no ASCII byte, and an ASCII character is its own byte. -/
theorem flatMap_escapeByte_encodeChar (c : ℕ) :
    (encodeChar c).flatMap escapeByte = encode (escapeChar c) := by
  by_cases hc : c < 0x80
  · revert c
    decide
  · have hne : ¬ (c = 34 ∨ c = 92) := by omega
    have hbytes : ∀ b ∈ encodeChar c, escapeByte b = [b] := by
      intro b hb
      have := le_toNat_of_mem_encodeChar (by omega) hb
      have hb' : ¬ (b = 34 ∨ b = 92) := by
        rintro (rfl | rfl) <;> simp at this
      rw [escapeByte, if_neg hb']
    rw [escapeChar, if_neg hne, List.flatMap_congr hbytes, List.flatMap_singleton', encode,
      List.flatMap_singleton]

theorem flatMap_escapeByte_encode (cs : List ℕ) :
    (encode cs).flatMap escapeByte = encode (cs.flatMap escapeChar) := by
  induction cs with
  | nil => rfl
  | cons c cs ih =>
    rw [encode_cons, List.flatMap_append, ih, flatMap_escapeByte_encodeChar, List.flatMap_cons,
      encode_append]

theorem Encodes.escape {b : List UInt8} {cs : List ℕ} (h : Encodes b cs) :
    Encodes (b.flatMap escapeByte) (cs.flatMap escapeChar) := by
  refine ⟨fun c hc => ?_, by rw [← h.2, flatMap_escapeByte_encode]⟩
  obtain ⟨d, hd, hcd⟩ := List.mem_flatMap.mp hc
  have hd' := h.1 d hd
  unfold escapeChar at hcd
  split_ifs at hcd <;> simp at hcd <;> omega

theorem encodes_quote {s : List UInt8} (h : IsText s) : Encodes (quote s) (quoteText s) :=
  Encodes.cons (by decide) ((Encodes.escape h).append (Encodes.ascii (by decide)))

mutual
/-- The manifest of a value is the UTF-8 encoding of its text. -/
theorem Value.encodes_manifest : ∀ v : Value, v.Wf → Encodes v.manifest v.text
  | .string _, h => encodes_quote h
  | .tuple t, h => Encodes.cons (by decide) (Entries.encodes_manifest t h)
  | .vector v, h => Encodes.cons (by decide) (Elems.encodes_manifest v h)

theorem Entries.encodes_manifest : ∀ t : Entries, t.Wf → Encodes t.manifest t.text
  | .nil, _ => Encodes.ascii (by decide)
  | .cons _ v rest, h =>
    ((encodes_quote h.1).append (Encodes.cons (by decide) (Value.encodes_manifest v h.2.2.1))).append
      (Entries.encodes_manifestAfter rest h.2.2.2)

theorem Entries.encodes_manifestAfter : ∀ t : Entries, t.Wf → Encodes t.manifestAfter t.textAfter
  | .nil, _ => Encodes.ascii (by decide)
  | .cons _ v rest, h =>
    ((Encodes.cons (by decide) (encodes_quote h.1)).append
      (Encodes.cons (by decide) (Value.encodes_manifest v h.2.2.1))).append
        (Entries.encodes_manifestAfter rest h.2.2.2)

theorem Elems.encodes_manifest : ∀ v : Elems, v.Wf → Encodes v.manifest v.text
  | .nil, _ => Encodes.ascii (by decide)
  | .cons x rest, h => (Value.encodes_manifest x h.1).append (Elems.encodes_manifestAfter rest h.2)
  | .hole _, h => h.elim

theorem Elems.encodes_manifestAfter : ∀ v : Elems, v.Wf → Encodes v.manifestAfter v.textAfter
  | .nil, _ => Encodes.ascii (by decide)
  | .cons x rest, h =>
    Encodes.cons (by decide) ((Value.encodes_manifest x h.1).append (Elems.encodes_manifestAfter rest h.2))
  | .hole _, h => h.elim
end

/-- `string_foreach` reads the text of a value from its manifest. -/
theorem stringCharacters_manifest {v : Value} (hv : v.Wf) : stringCharacters v.manifest = v.text :=
  (Value.encodes_manifest v hv).stringCharacters_eq

/-! ## What the parser does with the text

A value starts with `"`, `(` or `[`; the parser that `parse_value` leaves after that first
character is `Value.opening`. The chains of closures the text sets off are at most six deep, at
the first element of a vector: `eat_whitespace`, `is_end_of_vector`, `eat_whitespace`,
`parse_value`, `eat_whitespace` and `parse_value_string`. -/

def Value.lead : Value → ℕ
  | .string _ => 34
  | .tuple _ => 40
  | .vector _ => 91

/-- The parser `parse_value` with the completion `c` leaves after the first character. -/
def Value.opening (c : Completion) : Value → Parser
  | .string _ => .quotedString c []
  | .tuple _ => .eatWhitespace (.isEndOfTuple c .nil)
  | .vector _ => .eatWhitespace (.isEndOfVector c .nil 0)

theorem apply_parseValue_lead (m : ℕ) (c : Completion) (v : Value) :
    apply (m + 3) (.parseValue c) v.lead = some (v.opening c, []) := by
  cases v <;> rfl

theorem apply_eatWhitespace_lead (m : ℕ) (p : Parser) (v : Value) :
    apply (m + 1) (.eatWhitespace p) v.lead = apply m p v.lead := by
  cases v <;> rfl

theorem apply_isEndOfVector_lead (m : ℕ) (c : Completion) (w : Elems) (index : ℕ) (v : Value) :
    apply (m + 2) (.isEndOfVector c w index) v.lead =
      apply m (.parseValue (.vectorValue c w index)) v.lead := by
  cases v <;> rfl

theorem apply_quotedString_char (m : ℕ) (c : Completion) (s : List UInt8) {x : ℕ} (hq : x ≠ 34)
    (hb : x ≠ 92) : apply (m + 1) (.quotedString c s) x = some (.quotedString c (pushCharacter s x), []) := by
  simp only [apply, if_neg hq, if_neg hb]

/-- The escaped characters `cs` and the closing `"`, fed to a quoted string, complete it with the
    bytes of `cs` pushed after its own. -/
theorem feed_escaped (m : ℕ) (cs : List ℕ) (c : Completion) (s : List UInt8) (more : List ℕ) :
    feed (m + 1) (.quotedString c s) (cs.flatMap escapeChar ++ 34 :: more) =
      thenFeed (m + 1) (complete c (.string (s ++ encode cs))) more := by
  induction cs generalizing s with
  | nil =>
    rw [List.flatMap_nil, List.nil_append, encode_nil, List.append_nil]
    exact feed_cons more rfl
  | cons d cs ih =>
    rw [List.flatMap_cons, List.append_assoc, encode_cons, ← List.append_assoc s, ← pushCharacter_eq]
    by_cases hd : d = 34 ∨ d = 92
    · -- a backslash, then the character itself
      rw [escapeChar, if_pos hd, List.cons_append, List.cons_append, List.nil_append, feed_cons_silent _ rfl,
        feed_cons_silent _ rfl, ih]
    · rw [escapeChar, if_neg hd, List.singleton_append,
        feed_cons_silent _ (apply_quotedString_char m c s (fun h => hd (.inl h)) (fun h => hd (.inr h))), ih]

/-- Feeding the text of `v`, then `rest`, to a parser that answers the first character as
    `parse_value` with the completion `c` does, is the completion of `v`, then `rest`. -/
def Feeds (fuel : ℕ) (v : Value) : Prop :=
  ∀ (c : Completion) (p : Parser) (rest : List ℕ), apply fuel p v.lead = some (v.opening c, []) →
    feed fuel p (v.text ++ rest) = thenFeed fuel (complete c v) rest

/-- The attributes of `es` and the `)`, fed to the end-of-tuple parser of `t`, complete the
    tuple of the attributes of `t` and then of `es`. -/
def EntriesFeed (fuel : ℕ) (es : Entries) : Prop :=
  ∀ (c : Completion) (t : Entries) (rest : List ℕ), (∀ name ∈ es.names, name ∉ t.names) →
    feed fuel (.eatWhitespace (.isEndOfTuple c t)) (es.text ++ rest) =
      thenFeed fuel (complete c (.tuple (t.append es))) rest

/-- The elements of `es` after the first, each after a space, and the `]`, fed to the
    end-of-vector parser of `w` after an element, complete the vector of the slots of `w` and
    then of `es`. -/
def ElemsFeed (fuel : ℕ) (es : Elems) : Prop :=
  ∀ (c : Completion) (w : Elems) (rest : List ℕ),
    feed fuel (.isEndOfVector c w w.length) (es.textAfter ++ rest) =
      thenFeed fuel (complete c (.vector (w.append es))) rest

/-! ### Strings -/

theorem feeds_string (m : ℕ) {s : List UInt8} (hs : IsText s) : Feeds (m + 1) (.string s) := by
  intro c p rest hp
  have hp' : apply (m + 1) p 34 = some (.quotedString c [], []) := hp
  simp only [Value.text, quoteText, List.cons_append, List.append_assoc, List.nil_append]
  rw [feed_cons_silent _ hp', feed_escaped, List.nil_append, hs.2]

/-! ### Tuples -/

/-- A quoted name, fed to the end-of-tuple parser of `t`, leaves `dispatch_property` waiting for
    the `:` before the value of that name. -/
theorem feed_name (m : ℕ) {name : List UInt8} (h : IsText name) (c : Completion) (t : Entries)
    (more : List ℕ) :
    feed (m + 4) (.eatWhitespace (.isEndOfTuple c t)) (quoteText name ++ more) =
      feed (m + 4) (.eatWhitespace (.dispatchProperty (.parseValue (.tupleValue c t name)))) more := by
  simp only [quoteText, List.cons_append, List.append_assoc, List.nil_append]
  rw [feed_cons_silent _ rfl, feed_escaped, List.nil_append, h.2]
  exact thenFeed_silent _ _ more

theorem feed_textAfter (m : ℕ) (p : Parser) (es : Entries) (rest : List ℕ) :
    feed (m + 1) (.eatWhitespace p) (es.textAfter ++ rest) =
      feed (m + 1) (.eatWhitespace p) (es.text ++ rest) := by
  cases es with
  | nil => rfl
  | cons name v r => exact feed_cons_silent _ rfl

theorem entriesFeed_nil (m : ℕ) : EntriesFeed (m + 2) .nil := by
  intro c t rest _
  rw [Entries.append_nil]
  exact feed_cons rest rfl

theorem entriesFeed_cons (m : ℕ) {name : List UInt8} {v : Value} {r : Entries} (hname : IsText name)
    (hfresh : name ∉ r.names) (hv : Feeds (m + 6) v) (hr : EntriesFeed (m + 6) r) :
    EntriesFeed (m + 6) (.cons name v r) := by
  intro c t rest hdisj
  have ht : name ∉ t.names := hdisj name List.mem_cons_self
  -- the names of `r` are neither in `t` nor the name just set
  have hdisj' : ∀ n ∈ r.names, n ∉ (t.set name v).names := by
    intro n hn
    rw [Entries.set_of_not_mem ht, Entries.names_append, List.mem_append, not_or]
    exact ⟨hdisj n (List.mem_cons_of_mem name hn), by
      rw [Entries.names, Entries.names, List.mem_singleton]
      rintro rfl
      exact hfresh hn⟩
  rw [Entries.text, List.append_assoc, List.append_assoc, List.cons_append, feed_name (m + 2) hname,
    feed_cons_silent _ rfl, hv _ _ _ (apply_parseValue_lead _ _ v)]
  -- `value_complete` sets the attribute and hands back the end-of-tuple parser
  rw [show complete (.tupleValue c t name) v = (.eatWhitespace (.isEndOfTuple c (t.set name v)), [])
    from rfl, thenFeed_silent, feed_textAfter, hr c _ rest hdisj', Entries.set_of_not_mem ht,
    Entries.append_assoc]
  rfl

theorem feeds_tuple (m : ℕ) {t : Entries} (ht : EntriesFeed (m + 1) t) : Feeds (m + 1) (.tuple t) := by
  intro c p rest hp
  have hp' : apply (m + 1) p 40 = some (.eatWhitespace (.isEndOfTuple c .nil), []) := hp
  rw [Value.text, List.cons_append, feed_cons_silent _ hp', ht c .nil rest (fun _ _ => List.not_mem_nil)]
  rfl

/-! ### Vectors -/

theorem elemsFeed_nil (m : ℕ) : ElemsFeed (m + 1) .nil := by
  intro c w rest
  rw [Elems.append_nil]
  exact feed_cons rest rfl

/-- A space after an element makes `is_end_of_vector` start the parser of the next one, at the
    index just past the end, where `vector_set` appends it. -/
theorem elemsFeed_cons (m : ℕ) {x : Value} {r : Elems} (hx : Feeds (m + 6) x) (hr : ElemsFeed (m + 6) r) :
    ElemsFeed (m + 6) (.cons x r) := by
  intro c w rest
  have hlead : apply (m + 6) (.eatWhitespace (.parseValue (.vectorValue c w w.length))) x.lead =
      some (x.opening (.vectorValue c w w.length), []) := by
    rw [apply_eatWhitespace_lead, apply_parseValue_lead]
  have hlen : w.length + 1 = (w.append (.cons x .nil)).length := by
    rw [Elems.length_append, Elems.length, Elems.length]
  simp only [Elems.textAfter, List.cons_append, List.append_assoc]
  rw [feed_cons_silent _ rfl, hx _ _ _ hlead,
    show complete (.vectorValue c w w.length) x = (.isEndOfVector c (w.set w.length x) (w.length + 1), [])
      from rfl, thenFeed_silent, Elems.set_length, hlen, hr, Elems.append_assoc]
  rfl

theorem feeds_vector_nil (m : ℕ) : Feeds (m + 2) (.vector .nil) := by
  intro c p rest hp
  have hp' : apply (m + 2) p 91 = some (.eatWhitespace (.isEndOfVector c .nil 0), []) := hp
  rw [Value.text, Elems.text, List.cons_append, feed_cons_silent _ hp']
  exact feed_cons rest rfl

theorem feeds_vector_cons (m : ℕ) {x : Value} {r : Elems} (hx : Feeds (m + 6) x)
    (hr : ElemsFeed (m + 6) r) : Feeds (m + 6) (.vector (.cons x r)) := by
  intro c p rest hp
  have hp' : apply (m + 6) p 91 = some (.eatWhitespace (.isEndOfVector c .nil 0), []) := hp
  have hlead : apply (m + 6) (.eatWhitespace (.isEndOfVector c .nil 0)) x.lead =
      some (x.opening (.vectorValue c .nil 0), []) := by
    rw [apply_eatWhitespace_lead, apply_isEndOfVector_lead, apply_parseValue_lead]
  rw [Value.text, Elems.text, List.cons_append, List.append_assoc, feed_cons_silent _ hp',
    hx _ _ _ hlead, show complete (.vectorValue c .nil 0) x =
      (.isEndOfVector c (.cons x .nil) (Elems.cons x .nil).length, []) from rfl, thenFeed_silent, hr]
  rfl

/-! ### Every value -/

mutual
theorem feeds_of_wf (m : ℕ) : ∀ v : Value, v.Wf → Feeds (m + 6) v
  | .string _, h => feeds_string (m + 5) h
  | .tuple t, h => feeds_tuple (m + 5) (entriesFeed_of_wf m t h)
  | .vector .nil, _ => feeds_vector_nil (m + 4)
  | .vector (.cons x r), h => feeds_vector_cons m (feeds_of_wf m x h.1) (elemsFeed_of_wf m r h.2)
  | .vector (.hole _), h => h.elim

theorem entriesFeed_of_wf (m : ℕ) : ∀ es : Entries, es.Wf → EntriesFeed (m + 6) es
  | .nil, _ => entriesFeed_nil (m + 4)
  | .cons _ v r, h =>
    entriesFeed_cons m h.1 h.2.1 (feeds_of_wf m v h.2.2.1) (entriesFeed_of_wf m r h.2.2.2)

theorem elemsFeed_of_wf (m : ℕ) : ∀ es : Elems, es.Wf → ElemsFeed (m + 6) es
  | .nil, _ => elemsFeed_nil (m + 5)
  | .cons x r, h => elemsFeed_cons m (feeds_of_wf m x h.1) (elemsFeed_of_wf m r h.2)
  | .hole _, h => h.elim
end

/-! ## The round trip -/

/-- The text of `v` fed to a parser at its start, which opens `v` as `parse_value` does: the
    finish handler is called with `v`, and the parser is back at its start. -/
theorem feed_start (m : ℕ) {v : Value} (hv : v.Wf) (root : Root)
    (hp : apply (m + 6) (start root) v.lead = some (v.opening (.bridge root), [])) :
    feed (m + 6) (start root) v.text = some (start root, [.finish v]) := by
  have h := feeds_of_wf m v hv (.bridge root) (start root) [] hp
  rw [List.append_nil] at h
  rw [h]
  rfl

/-- The manifest of a value whose strings and names are UTF-8 text, whose tuples have distinct
    names and whose vectors have no empty slot, fed to `value_parser`, and for a tuple also to
    `tuple_parser`, calls the finish handler once, with the value, calls no error handler, and
    leaves the parser at its start. Six levels of closures are enough. -/
theorem manifest_round_trip (v : Value) (hv : v.Wf) (fuel : ℕ) (hf : 6 ≤ fuel) :
    parserFeed fuel valueParser v.manifest = some (valueParser, [.finish v]) ∧
      ∀ t, v = .tuple t → parserFeed fuel tupleParser v.manifest = some (tupleParser, [.finish v]) := by
  obtain ⟨m, rfl⟩ : ∃ m, fuel = m + 6 := ⟨fuel - 6, by omega⟩
  refine ⟨?_, ?_⟩
  · rw [parserFeed, stringCharacters_manifest hv]
    exact feed_start m hv .value (by cases v <;> rfl)
  · -- `parse_tuple` opens a tuple as `parse_value` does
    rintro t rfl
    rw [parserFeed, stringCharacters_manifest hv]
    exact feed_start m hv .tuple rfl

/-- A tuple with a two-byte name whose value is a vector of a string holding `"` and `\`, and
    an empty tuple. -/
theorem manifest_round_trip_nested :
    parserFeed 6 valueParser
        (Value.tuple (.cons [0xc3, 0xa9]
          (.vector (.cons (.string [34, 92]) (.cons (.tuple .nil) .nil))) .nil)).manifest =
      some (valueParser, [.finish (.tuple (.cons [0xc3, 0xa9]
          (.vector (.cons (.string [34, 92]) (.cons (.tuple .nil) .nil))) .nil))]) ∧
    ∀ t, Value.tuple (.cons [0xc3, 0xa9]
          (.vector (.cons (.string [34, 92]) (.cons (.tuple .nil) .nil))) .nil) = .tuple t →
      parserFeed 6 tupleParser
          (Value.tuple (.cons [0xc3, 0xa9]
            (.vector (.cons (.string [34, 92]) (.cons (.tuple .nil) .nil))) .nil)).manifest =
        some (tupleParser, [.finish (.tuple (.cons [0xc3, 0xa9]
            (.vector (.cons (.string [34, 92]) (.cons (.tuple .nil) .nil))) .nil))]) :=
  manifest_round_trip _ (by decide) 6 le_rfl

/-- A string of the one byte `0x80`, which is no UTF-8 text: `string_foreach` reads it through
    a signed `char` as the character `0xffffff80`, which `push_character` does not write, so the
    empty string is finished. -/
theorem string_high_byte :
    ¬ (Value.string [0x80]).Wf ∧
      parserFeed 6 valueParser (Value.string [0x80]).manifest =
        some (valueParser, [.finish (.string [])]) := by
  decide

end Nanos.TupleParser
