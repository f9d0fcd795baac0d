import Nanos.Utf8

set_option autoImplicit false

/-!
# `runtime/tuple_parser.c`: the text parser of tuples and values

The parser is a chain of closures: each takes one character and returns the parser for the next.
Here a closure is a constructor of `Parser` holding what the closure binds, and a completion (a
closure applied to what a sub-parser finished) a constructor of `Completion`. What the closures
build in place (the string `quoted_string` pushes characters onto, the tuple or vector
`value_complete` sets a slot of, the index of a vector) is carried by value: a closure that
shares it with the parser it returns hands the updated value on.

`apply fuel p x` is `apply(p, x)`. A closure may apply another to the same character:
`eat_whitespace` passes on a character it does not eat, `terminal` feeds the character that ends
a bare word to the parser its completion returns, and so on. `fuel` bounds that chain, and on
some texts no fuel is enough (`apply_isEndOfVector_paren`): there the C recursion never returns.
-/

namespace Nanos.TupleParser

open Nanos.Utf8

mutual
/-- The values the parser builds: a string of bytes, a table-backed tuple, a tagged vector. -/
inductive Value where
  | string (s : List UInt8)
  | tuple (t : Entries)
  | vector (v : Elems)

/-- The attributes of a tuple, in the order they were first set. -/
inductive Entries where
  | nil
  | cons (name : List UInt8) (v : Value) (rest : Entries)

/-- The slots of a vector; `hole` is an empty slot, the zero pointer `extend_total` fills in. -/
inductive Elems where
  | nil
  | cons (v : Value) (rest : Elems)
  | hole (rest : Elems)
end

deriving instance DecidableEq for Value, Entries, Elems
deriving instance Repr for Value, Entries, Elems

/-- `set(t, intern(name), v)` on a table-backed tuple, that is `table_set`: an attribute that is
    there takes the new value, another is added. The list keeps the order of first setting; the
    order of the table's buckets is read by nothing here. -/
def Entries.set : Entries → List UInt8 → Value → Entries
  | .nil, name, v => .cons name v .nil
  | .cons name' v' rest, name, v =>
    if name' = name then .cons name v rest else .cons name' v' (rest.set name v)

/-- `set(v, integer_key(i), x)` on a vector, that is `vector_set`: slot `i` takes `x`, after
    `extend_total` has grown a shorter vector by empty slots. -/
def Elems.set : Elems → ℕ → Value → Elems
  | .nil, 0, x => .cons x .nil
  | .nil, i + 1, x => .hole (Elems.nil.set i x)
  | .cons _ rest, 0, x => .cons x rest
  | .hole rest, 0, x => .cons x rest
  | .cons y rest, i + 1, x => .cons y (rest.set i x)
  | .hole rest, i + 1, x => .hole (rest.set i x)

def Elems.length : Elems → ℕ
  | .nil => 0
  | .cons _ rest => rest.length + 1
  | .hole rest => rest.length + 1

/-! ## Character sets -/

/-- `whitespace`, from `" \n\r\t"`. -/
def whitespace : List ℕ := [32, 10, 13, 9]

/-- `value_terminal`: `"()[]"` and the whitespace. -/
def valueTerminal : List ℕ := [40, 41, 91, 93] ++ whitespace

/-- `name_terminal`: `"()[]"`, the property sigils `":|/"` and the whitespace. -/
def nameTerminal : List ℕ := [40, 41, 91, 93] ++ [58, 124, 47] ++ whitespace

/-! ## The closures -/

/-- The messages given to `err_internal`. -/
inductive ParseError where
  /-- `"unknown property discriminator %d"` -/
  | discriminator (x : ℕ)
  /-- `"parse_tuple fail, leading char %c"` -/
  | leadingChar (x : ℕ)
deriving DecidableEq, Repr

/-- A call of the `parse_finish` or the `parse_error` closure given to the parser. -/
inductive Event where
  | finish (v : Value)
  | error (e : ParseError)
deriving DecidableEq, Repr

/-- Which parser was asked for: `tuple_parser` or `value_parser`. -/
inductive Root where
  | tuple
  | value
deriving DecidableEq, Repr

mutual
/-- The parser closures. The error closure is the parser's one `bridge_err` and is left out. -/
inductive Parser where
  /-- `til_newline(finish)` -/
  | tilNewline (finish : Parser)
  /-- `eat_whitespace(h, finish)`, which `ignore_whitespace` wraps around `finish` -/
  | eatWhitespace (finish : Parser)
  /-- `escaped_character(h, s, next)`, with `next` the quoted string that pushes onto `s` -/
  | escapedCharacter (c : Completion) (s : List UInt8)
  /-- `quoted_string(h, c, s)` -/
  | quotedString (c : Completion) (s : List UInt8)
  /-- `terminal(c, final, s)` -/
  | terminal (c : Completion) (final : List ℕ) (s : List UInt8)
  /-- `dispatch_property(h, pv, e)` -/
  | dispatchProperty (pv : Parser)
  /-- `is_end_of_tuple(h, c, t, e)` -/
  | isEndOfTuple (c : Completion) (t : Entries)
  /-- `is_end_of_vector(h, c, v, e, index)` -/
  | isEndOfVector (c : Completion) (v : Elems) (index : ℕ)
  /-- `parse_value_string(h, c, s)` -/
  | parseValueString (c : Completion) (s : List UInt8)
  /-- `parse_value(h, c, err)` -/
  | parseValue (c : Completion)
  /-- `parse_tuple(h, c, err)` -/
  | parseTuple (c : Completion)
  /-- `parse_name(h, c, s)` -/
  | parseName (c : Completion) (s : List UInt8)
  /-- `kill` -/
  | kill

/-- The completion closures. -/
inductive Completion where
  /-- `bridge_completion(c, err, start)` -/
  | bridge (root : Root)
  /-- `name_complete(h, t, check, err)`, whose `check` is the end-of-tuple parser of `t` -/
  | nameComplete (c : Completion) (t : Entries)
  /-- `value_complete(t, intern(name), check)`, made by `name_complete` -/
  | tupleValue (c : Completion) (t : Entries) (name : List UInt8)
  /-- `value_complete(v, integer_key(index), check)`, made by `is_end_of_vector` -/
  | vectorValue (c : Completion) (v : Elems) (index : ℕ)
end

deriving instance DecidableEq for Parser, Completion
deriving instance Repr for Parser, Completion

/-- `*start`: the parser `tuple_parser` or `value_parser` returns, and comes back to after each
    value it finishes. -/
def start : Root → Parser
  | .tuple => .eatWhitespace (.parseTuple (.bridge .tuple))
  | .value => .eatWhitespace (.parseValue (.bridge .value))

def tupleParser : Parser := start .tuple

def valueParser : Parser := start .value

/-- A parser and the handler calls made on the way to it. -/
abbrev Step := Parser × List Event

/-- `bridge_err`: the error handler is called, and the parser becomes `kill`. -/
def raise (e : ParseError) : Step := (.kill, [.error e])

/-- A completion applied to what its sub-parser finished. `name_complete` is only ever given the
    string `parse_name` read; the last case is never reached. -/
def complete : Completion → Value → Step
  | .bridge root, v => (start root, [.finish v])
  | .nameComplete c t, .string name =>
    (.eatWhitespace (.dispatchProperty (.parseValue (.tupleValue c t name))), [])
  | .tupleValue c t name, v => (.eatWhitespace (.isEndOfTuple c (t.set name v)), [])
  -- the shared index was moved past `index` when this completion was made
  | .vectorValue c v index, x => (.isEndOfVector c (v.set index x) (index + 1), [])
  | .nameComplete _ _, _ => (.kill, [])

def after (evs : List Event) (o : Option Step) : Option Step :=
  o.map fun r => (r.1, evs ++ r.2)

/-- `apply(p, x)`, or `none` when a chain of closures applied to `x` outruns `fuel`. -/
def apply : ℕ → Parser → ℕ → Option Step
  | 0, _, _ => none
  | fuel + 1, p, x =>
    match p with
    | .tilNewline finish => some (if x = 10 then finish else .tilNewline finish, [])
    | .eatWhitespace finish =>
      if x = 35 then some (.tilNewline (.eatWhitespace finish), [])
      else if x ∈ whitespace then some (.eatWhitespace finish, [])
      else apply fuel finish x
    | .escapedCharacter c s => some (.quotedString c (pushCharacter s x), [])
    | .quotedString c s =>
      if x = 34 then some (complete c (.string s))
      else if x = 92 then some (.escapedCharacter c s, [])
      else some (.quotedString c (pushCharacter s x), [])
    | .terminal c final s =>
      -- the completion runs first, then the parser it returns takes `x`
      if x ∈ final then after (complete c (.string s)).2 (apply fuel (complete c (.string s)).1 x)
      else some (.terminal c final (pushCharacter s x), [])
    | .dispatchProperty pv => if x = 58 then some (pv, []) else some (raise (.discriminator x))
    | .isEndOfTuple c t =>
      if x = 41 then some (complete c (.tuple t))
      else apply fuel (.eatWhitespace (.parseName (.nameComplete c t) [])) x
    | .isEndOfVector c v index =>
      if x ≠ 93 then apply fuel (.eatWhitespace (.parseValue (.vectorValue c v index))) x
      else some (complete c (.vector v))
    | .parseValueString c s =>
      if x = 34 then some (.quotedString c s, [])
      else apply fuel (.terminal c valueTerminal s) x
    | .parseValue c =>
      if x = 40 then some (.eatWhitespace (.isEndOfTuple c .nil), [])
      else if x = 91 then some (.eatWhitespace (.isEndOfVector c .nil 0), [])
      else apply fuel (.eatWhitespace (.parseValueString c [])) x
    | .parseTuple c =>
      if x ≠ 40 then some (raise (.leadingChar x))
      else some (.eatWhitespace (.isEndOfTuple c .nil), [])
    | .parseName c s =>
      if x = 34 then some (.quotedString c s, [])
      else apply fuel (.terminal c nameTerminal s) x
    | .kill => some (.kill, [])

/-- The characters one after the other, each to the parser the last one returned. -/
def feed (fuel : ℕ) : Parser → List ℕ → Option Step
  | p, [] => some (p, [])
  | p, x :: xs => (apply fuel p x).bind fun r => after r.2 (feed fuel r.1 xs)

/-- `parser_feed(p, s)`: the characters `string_foreach` reads from the bytes of `s`. -/
def parserFeed (fuel : ℕ) (p : Parser) (s : List UInt8) : Option Step :=
  feed fuel p (stringCharacters s)

/-! ## Runs -/

@[simp] theorem after_nil (o : Option Step) : after [] o = o := by
  cases o <;> rfl

theorem after_some (evs : List Event) (r : Step) : after evs (some r) = some (r.1, evs ++ r.2) := rfl

/-- The handler calls of the step `r`, then the run of its parser on `rest`. -/
def thenFeed (fuel : ℕ) (r : Step) (rest : List ℕ) : Option Step :=
  after r.2 (feed fuel r.1 rest)

theorem thenFeed_silent (fuel : ℕ) (p : Parser) (rest : List ℕ) :
    thenFeed fuel (p, []) rest = feed fuel p rest := by
  rw [thenFeed, after_nil]

theorem feed_cons {fuel : ℕ} {p : Parser} {x : ℕ} {r : Step} (xs : List ℕ)
    (h : apply fuel p x = some r) : feed fuel p (x :: xs) = thenFeed fuel r xs := by
  rw [feed, h, Option.bind_some, thenFeed]

theorem feed_cons_silent {fuel : ℕ} {p q : Parser} {x : ℕ} (xs : List ℕ)
    (h : apply fuel p x = some (q, [])) : feed fuel p (x :: xs) = feed fuel q xs := by
  rw [feed_cons xs h, thenFeed_silent]

theorem feed_cons_congr {fuel : ℕ} {p q : Parser} {x : ℕ} (xs : List ℕ)
    (h : apply fuel p x = apply fuel q x) : feed fuel p (x :: xs) = feed fuel q (x :: xs) := by
  rw [feed, feed, h]

/-! ## The closures that apply another

One equation each for the closures that pass their character on; the others answer at once. -/

theorem apply_eatWhitespace (n : ℕ) (finish : Parser) (x : ℕ) :
    apply (n + 1) (.eatWhitespace finish) x =
      if x = 35 then some (.tilNewline (.eatWhitespace finish), [])
      else if x ∈ whitespace then some (.eatWhitespace finish, [])
      else apply n finish x := rfl

theorem apply_terminal (n : ℕ) (c : Completion) (final : List ℕ) (s : List UInt8) (x : ℕ) :
    apply (n + 1) (.terminal c final s) x =
      if x ∈ final then after (complete c (.string s)).2 (apply n (complete c (.string s)).1 x)
      else some (.terminal c final (pushCharacter s x), []) := rfl

theorem apply_isEndOfTuple (n : ℕ) (c : Completion) (t : Entries) (x : ℕ) :
    apply (n + 1) (.isEndOfTuple c t) x =
      if x = 41 then some (complete c (.tuple t))
      else apply n (.eatWhitespace (.parseName (.nameComplete c t) [])) x := rfl

theorem apply_isEndOfVector (n : ℕ) (c : Completion) (v : Elems) (index x : ℕ) :
    apply (n + 1) (.isEndOfVector c v index) x =
      if x ≠ 93 then apply n (.eatWhitespace (.parseValue (.vectorValue c v index))) x
      else some (complete c (.vector v)) := rfl

theorem apply_parseValueString (n : ℕ) (c : Completion) (s : List UInt8) (x : ℕ) :
    apply (n + 1) (.parseValueString c s) x =
      if x = 34 then some (.quotedString c s, [])
      else apply n (.terminal c valueTerminal s) x := rfl

theorem apply_parseValue (n : ℕ) (c : Completion) (x : ℕ) :
    apply (n + 1) (.parseValue c) x =
      if x = 40 then some (.eatWhitespace (.isEndOfTuple c .nil), [])
      else if x = 91 then some (.eatWhitespace (.isEndOfVector c .nil 0), [])
      else apply n (.eatWhitespace (.parseValueString c [])) x := rfl

theorem apply_parseName (n : ℕ) (c : Completion) (s : List UInt8) (x : ℕ) :
    apply (n + 1) (.parseName c s) x =
      if x = 34 then some (.quotedString c s, [])
      else apply n (.terminal c nameTerminal s) x := rfl

/-! ## Fuel

More fuel never changes a result: `fuel` only bounds how deep the closures may re-apply a
character, as the C stack does. -/

theorem apply_succ : ∀ {n : ℕ} {p : Parser} {x : ℕ} {r : Step},
    apply n p x = some r → apply (n + 1) p x = some r
  | 0, _, _, _, h => by simp [apply] at h
  | n + 1, p, x, r, h => by
    cases p with
    | eatWhitespace finish =>
      rw [apply_eatWhitespace] at h ⊢
      split_ifs at h ⊢
      · exact h
      · exact h
      · exact apply_succ h
    | terminal c final s =>
      rw [apply_terminal] at h ⊢
      split_ifs at h ⊢
      · cases hq : apply n (complete c (.string s)).1 x with
        | none => simp [hq, after] at h
        | some r' => rw [hq] at h; rw [apply_succ hq, h]
      · exact h
    | isEndOfTuple c t =>
      rw [apply_isEndOfTuple] at h ⊢
      split_ifs at h ⊢
      · exact h
      · exact apply_succ h
    | isEndOfVector c v index =>
      rw [apply_isEndOfVector] at h ⊢
      split_ifs at h ⊢
      · exact apply_succ h
      · exact h
    | parseValueString c s =>
      rw [apply_parseValueString] at h ⊢
      split_ifs at h ⊢
      · exact h
      · exact apply_succ h
    | parseValue c =>
      rw [apply_parseValue] at h ⊢
      split_ifs at h ⊢
      · exact h
      · exact h
      · exact apply_succ h
    | parseName c s =>
      rw [apply_parseName] at h ⊢
      split_ifs at h ⊢
      · exact h
      · exact apply_succ h
    | tilNewline | escapedCharacter | quotedString | dispatchProperty | parseTuple | kill => exact h

theorem apply_mono {n m : ℕ} (hnm : n ≤ m) {p : Parser} {x : ℕ} {r : Step}
    (h : apply n p x = some r) : apply m p x = some r := by
  induction m, hnm using Nat.le_induction with
  | base => exact h
  | succ m _ ih => exact apply_succ ih

theorem feed_mono {n m : ℕ} (hnm : n ≤ m) {p : Parser} {xs : List ℕ} {r : Step}
    (h : feed n p xs = some r) : feed m p xs = some r := by
  induction xs generalizing p r with
  | nil => exact h
  | cons x xs ih =>
    rw [feed] at h ⊢
    obtain ⟨q, hq, h'⟩ := Option.bind_eq_some_iff.mp h
    obtain ⟨r', hr', rfl⟩ := Option.map_eq_some_iff.mp h'
    rw [apply_mono hnm hq, Option.bind_some, after, ih hr', Option.map_some]

/-- After a bare word in a vector, `)` goes round for ever: `terminal` ends the word at `)` and
    hands it to `is_end_of_vector`, which starts a new element on the same `)`, an empty bare
    word that `terminal` ends at once. In C the recursion overflows the stack. -/
theorem apply_isEndOfVector_paren (c : Completion) (fuel : ℕ) :
    ∀ (v : Elems) (index : ℕ), apply fuel (.isEndOfVector c v index) 41 = none := by
  induction fuel using Nat.strong_induction_on with
  | _ fuel ih =>
    intro v index
    match fuel, ih with
    | 0, _ | 1, _ | 2, _ | 3, _ | 4, _ | 5, _ => rfl
    | f + 6, ih =>
      show after [] (apply f (.isEndOfVector c (v.set index (.string [])) (index + 1)) 41) = none
      rw [ih f (by omega)]
      rfl

/-! ## Tuples and vectors -/

def Entries.names : Entries → List (List UInt8)
  | .nil => []
  | .cons name _ rest => name :: rest.names

def Entries.append : Entries → Entries → Entries
  | .nil, u => u
  | .cons name v rest, u => .cons name v (rest.append u)

def Elems.append : Elems → Elems → Elems
  | .nil, w => w
  | .cons x rest, w => .cons x (rest.append w)
  | .hole rest, w => .hole (rest.append w)

theorem Entries.append_nil : ∀ t : Entries, t.append .nil = t
  | .nil => rfl
  | .cons name v rest => by rw [Entries.append, Entries.append_nil rest]

theorem Elems.append_nil : ∀ v : Elems, v.append .nil = v
  | .nil => rfl
  | .cons x rest => by rw [Elems.append, Elems.append_nil rest]
  | .hole rest => by rw [Elems.append, Elems.append_nil rest]

theorem Entries.names_append : ∀ t u : Entries, (t.append u).names = t.names ++ u.names
  | .nil, _ => rfl
  | .cons name v rest, u => by
    rw [Entries.append, Entries.names, Entries.names, Entries.names_append rest u, List.cons_append]

theorem Entries.append_assoc : ∀ t u w : Entries, (t.append u).append w = t.append (u.append w)
  | .nil, _, _ => rfl
  | .cons name v rest, u, w => by
    rw [Entries.append, Entries.append, Entries.append, Entries.append_assoc rest u w]

theorem Elems.append_assoc : ∀ v w z : Elems, (v.append w).append z = v.append (w.append z)
  | .nil, _, _ => rfl
  | .cons x rest, w, z => by rw [Elems.append, Elems.append, Elems.append, Elems.append_assoc rest w z]
  | .hole rest, w, z => by rw [Elems.append, Elems.append, Elems.append, Elems.append_assoc rest w z]

theorem Elems.length_append : ∀ v w : Elems, (v.append w).length = v.length + w.length
  | .nil, w => by rw [Elems.append, Elems.length, Nat.zero_add]
  | .cons x rest, w => by
    rw [Elems.append, Elems.length, Elems.length, Elems.length_append rest w]
    omega
  | .hole rest, w => by
    rw [Elems.append, Elems.length, Elems.length, Elems.length_append rest w]
    omega

theorem Entries.set_of_not_mem : ∀ {t : Entries} {name : List UInt8}, name ∉ t.names →
    ∀ v : Value, t.set name v = t.append (.cons name v .nil)
  | .nil, _, _, _ => rfl
  | .cons name' v' rest, name, h, v => by
    rw [Entries.names, List.mem_cons, not_or] at h
    rw [Entries.set, if_neg (Ne.symm h.1), Entries.set_of_not_mem h.2 v, Entries.append]

theorem Elems.set_length : ∀ (v : Elems) (x : Value), v.set v.length x = v.append (.cons x .nil)
  | .nil, _ => rfl
  | .cons y rest, x => by rw [Elems.length, Elems.set, Elems.set_length rest x, Elems.append]
  | .hole rest, x => by rw [Elems.length, Elems.set, Elems.set_length rest x, Elems.append]

end Nanos.TupleParser
