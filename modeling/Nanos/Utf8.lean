import Mathlib.Data.Nat.Bitwise

set_option autoImplicit false

/-!
# `runtime/text.h`: characters and their UTF-8 bytes

A `string` is a buffer of bytes and a `character` a `u32`. `push_character` appends the UTF-8
bytes of a character below `0x110000` and nothing for a larger one; `pop_character` decodes the
sequence the first byte announces, and `string_foreach` pops characters until one is
`CHARACTER_INVALID`. A byte whose high bits announce no sequence is taken alone, read through a
`char *`, which is signed on x86-64: from `0x80` on it is sign-extended into the 32-bit
character, which `push_character` does not write, and `0xff` becomes `CHARACTER_INVALID`.

Decoding gives back every character below `0x110000` that was encoded (`utf8Decode_encodeChar`),
so the characters of the encoding of a list of them are the list (`stringCharacters_encode`).
-/

namespace Nanos.Utf8

/-- `utf8_length(x)`: the length of the sequence a first byte announces; `~x & 0x80` is
    `x & 0x80 = 0`. -/
def utf8Length (x : ℕ) : ℕ :=
  if x &&& 0x80 = 0 then 1
  else if x &&& 0xe0 = 0xc0 then 2
  else if x &&& 0xf0 = 0xe0 then 3
  else if x &&& 0xf8 = 0xf0 then 4
  else 1

/-- The bits of the first byte that `utf8_decode` keeps for a sequence of `len` bytes; a byte
    alone is `x.ptr[0]` of a signed `char`, converted to the `u32` character. -/
def firstBits (len x : ℕ) : ℕ :=
  if len = 1 then (if x < 0x80 then x else x + 0xffffff00)
  else if len = 2 then x &&& 0x3f else if len = 3 then x &&& 0x1f else x &&& 0xf

def characterInvalid : ℕ := 0xffffffff

/-- `pop_character`, through `utf8_decode`: the character and the bytes after it, or `none` for
    `CHARACTER_INVALID` when the sequence is cut short. The character stays below `2 ^ 22`, so
    the `u32` shifts do not overflow. -/
def utf8Decode : List UInt8 → Option (ℕ × List UInt8)
  | [] => none
  | b :: rest =>
    let len := utf8Length b.toNat
    if rest.length + 1 < len then none
    else some ((rest.take (len - 1)).foldl (fun c x => c <<< 6 ||| x.toNat &&& 0x3f) (firstBits len b.toNat),
      rest.drop (len - 1))

/-- The characters `string_foreach` pops from `n` bytes or fewer: `pop_character` answers
    `CHARACTER_INVALID` when the decoding fails, and the loop stops at that character. -/
def characters : ℕ → List UInt8 → List ℕ
  | 0, _ => []
  | n + 1, b =>
    match utf8Decode b with
    | none => []
    | some (c, rest) => if c = characterInvalid then [] else c :: characters n rest

/-- `string_foreach(c, s)`: the characters of the string, up to the first that fails to decode. -/
def stringCharacters (s : List UInt8) : List ℕ := characters s.length s

/-- `push_character(s, c)`. -/
def pushCharacter (s : List UInt8) (c : ℕ) : List UInt8 :=
  if c < 0x80 then s ++ [UInt8.ofNat c]
  else if c < 0x800 then s ++ [UInt8.ofNat (0xc0 ||| c >>> 6), UInt8.ofNat (0x80 ||| c &&& 0x3f)]
  else if c < 0x10000 then
    s ++ [UInt8.ofNat (0xe0 ||| c >>> 12), UInt8.ofNat (0x80 ||| c >>> 6 &&& 0x3f),
      UInt8.ofNat (0x80 ||| c &&& 0x3f)]
  else if c < 0x110000 then
    s ++ [UInt8.ofNat (0xf0 ||| c >>> 18), UInt8.ofNat (0x80 ||| c >>> 12 &&& 0x3f),
      UInt8.ofNat (0x80 ||| c >>> 6 &&& 0x3f), UInt8.ofNat (0x80 ||| c &&& 0x3f)]
  else s

/-- The bytes `push_character` writes for `c`. -/
def encodeChar (c : ℕ) : List UInt8 := pushCharacter [] c

/-- The bytes of a list of characters. -/
def encode (cs : List ℕ) : List UInt8 := cs.flatMap encodeChar

theorem pushCharacter_eq (s : List UInt8) (c : ℕ) : pushCharacter s c = s ++ encodeChar c := by
  unfold encodeChar pushCharacter
  split_ifs <;> simp

@[simp] theorem encode_nil : encode [] = [] := rfl

theorem encode_cons (c : ℕ) (cs : List ℕ) : encode (c :: cs) = encodeChar c ++ encode cs := rfl

theorem encode_append (cs ds : List ℕ) : encode (cs ++ ds) = encode cs ++ encode ds := by
  simp [encode]

/-! ## The bytes of one character -/

theorem toNat_ofNat {n : ℕ} (h : n < 256) : (UInt8.ofNat n).toNat = n := UInt8.toNat_ofNat_of_lt' h

theorem cont_bits {x : ℕ} (h : x < 64) : (0x80 ||| x) &&& 0x3f = x := by
  revert x
  decide

theorem shift_or {a x : ℕ} (h : x < 64) : a <<< 6 ||| x = a * 64 + x := by
  rw [← Nat.shiftLeft_add_eq_or_of_lt (by omega), Nat.shiftLeft_eq]

theorem utf8Length_one {x : ℕ} (h : x < 0x80) : utf8Length x = 1 := by
  have : x &&& 0x80 = 0 := by revert x; decide
  simp [utf8Length, this]

theorem utf8Length_two {x : ℕ} (h : x < 32) : utf8Length (0xc0 ||| x) = 2 := by
  have : (0xc0 ||| x) &&& 0x80 ≠ 0 ∧ (0xc0 ||| x) &&& 0xe0 = 0xc0 := by revert x; decide
  simp [utf8Length, this]

theorem utf8Length_three {x : ℕ} (h : x < 16) : utf8Length (0xe0 ||| x) = 3 := by
  have : (0xe0 ||| x) &&& 0x80 ≠ 0 ∧ (0xe0 ||| x) &&& 0xe0 ≠ 0xc0 ∧ (0xe0 ||| x) &&& 0xf0 = 0xe0 := by
    revert x
    decide
  simp [utf8Length, this]

theorem utf8Length_four {x : ℕ} (h : x < 8) : utf8Length (0xf0 ||| x) = 4 := by
  have : (0xf0 ||| x) &&& 0x80 ≠ 0 ∧ (0xf0 ||| x) &&& 0xe0 ≠ 0xc0 ∧ (0xf0 ||| x) &&& 0xf0 ≠ 0xe0 ∧
      (0xf0 ||| x) &&& 0xf8 = 0xf0 := by
    revert x
    decide
  simp [utf8Length, this]

theorem firstBits_two {x : ℕ} (h : x < 32) : firstBits 2 (0xc0 ||| x) = x := by
  unfold firstBits
  revert x
  decide

theorem firstBits_three {x : ℕ} (h : x < 16) : firstBits 3 (0xe0 ||| x) = x := by
  unfold firstBits
  revert x
  decide

theorem firstBits_four {x : ℕ} (h : x < 8) : firstBits 4 (0xf0 ||| x) = x := by
  unfold firstBits
  revert x
  decide

/-- The continuation bytes of a character: the groups of six bits below its first bits. -/
theorem toNat_cont (c k : ℕ) : (UInt8.ofNat (0x80 ||| c >>> k &&& 0x3f)).toNat = 0x80 ||| c / 2 ^ k % 64 := by
  have h : c >>> k &&& 0x3f = c / 2 ^ k % 64 := by
    rw [Nat.shiftRight_eq_div_pow, show (0x3f : ℕ) = 2 ^ 6 - 1 from rfl, Nat.and_two_pow_sub_one_eq_mod]
  rw [h, toNat_ofNat ((by decide : ∀ x < 64, 0x80 ||| x < 256) _ (Nat.mod_lt _ (by decide)))]

theorem toNat_cont_zero (c : ℕ) : (UInt8.ofNat (0x80 ||| c &&& 0x3f)).toNat = 0x80 ||| c % 64 := by
  simpa using toNat_cont c 0

/-! The four sequences `pop_character` decodes. -/

theorem utf8Decode_one {b : UInt8} (hb : b.toNat < 0x80) (rest : List UInt8) :
    utf8Decode (b :: rest) = some (b.toNat, rest) := by
  simp [utf8Decode, utf8Length_one hb, firstBits, hb]

theorem utf8Decode_two {b0 b1 : UInt8} (h : utf8Length b0.toNat = 2) (rest : List UInt8) :
    utf8Decode (b0 :: b1 :: rest) = some (firstBits 2 b0.toNat <<< 6 ||| b1.toNat &&& 0x3f, rest) := by
  simp [utf8Decode, h]

theorem utf8Decode_three {b0 b1 b2 : UInt8} (h : utf8Length b0.toNat = 3) (rest : List UInt8) :
    utf8Decode (b0 :: b1 :: b2 :: rest) =
      some ((firstBits 3 b0.toNat <<< 6 ||| b1.toNat &&& 0x3f) <<< 6 ||| b2.toNat &&& 0x3f, rest) := by
  simp [utf8Decode, h]

theorem utf8Decode_four {b0 b1 b2 b3 : UInt8} (h : utf8Length b0.toNat = 4) (rest : List UInt8) :
    utf8Decode (b0 :: b1 :: b2 :: b3 :: rest) =
      some (((firstBits 4 b0.toNat <<< 6 ||| b1.toNat &&& 0x3f) <<< 6 ||| b2.toNat &&& 0x3f) <<< 6 |||
        b3.toNat &&& 0x3f, rest) := by
  simp [utf8Decode, h]

/-! The four byte sequences `push_character` writes. -/

theorem encodeChar_one {c : ℕ} (h1 : c < 0x80) : encodeChar c = [UInt8.ofNat c] := by
  simp [encodeChar, pushCharacter, h1]

theorem encodeChar_two {c : ℕ} (h1 : 0x80 ≤ c) (h2 : c < 0x800) :
    encodeChar c = [UInt8.ofNat (0xc0 ||| c >>> 6), UInt8.ofNat (0x80 ||| c &&& 0x3f)] := by
  simp [encodeChar, pushCharacter, h2, Nat.not_lt.mpr h1]

theorem encodeChar_three {c : ℕ} (h2 : 0x800 ≤ c) (h3 : c < 0x10000) :
    encodeChar c = [UInt8.ofNat (0xe0 ||| c >>> 12), UInt8.ofNat (0x80 ||| c >>> 6 &&& 0x3f),
      UInt8.ofNat (0x80 ||| c &&& 0x3f)] := by
  have h1 : ¬ c < 0x80 := by omega
  simp [encodeChar, pushCharacter, h1, h3, Nat.not_lt.mpr h2]

theorem encodeChar_four {c : ℕ} (h3 : 0x10000 ≤ c) (h4 : c < 0x110000) :
    encodeChar c = [UInt8.ofNat (0xf0 ||| c >>> 18), UInt8.ofNat (0x80 ||| c >>> 12 &&& 0x3f),
      UInt8.ofNat (0x80 ||| c >>> 6 &&& 0x3f), UInt8.ofNat (0x80 ||| c &&& 0x3f)] := by
  have h1 : ¬ c < 0x80 := by omega
  have h2 : ¬ c < 0x800 := by omega
  simp [encodeChar, pushCharacter, h1, h2, h4, Nat.not_lt.mpr h3]

theorem encodeChar_of_le {c : ℕ} (h4 : 0x110000 ≤ c) : encodeChar c = [] := by
  have h1 : ¬ c < 0x80 := by omega
  have h2 : ¬ c < 0x800 := by omega
  have h3 : ¬ c < 0x10000 := by omega
  simp [encodeChar, pushCharacter, h1, h2, h3, Nat.not_lt.mpr h4]

/-- `pop_character` gives back the character whose bytes `push_character` wrote. -/
theorem utf8Decode_encodeChar {c : ℕ} (hc : c < 0x110000) (rest : List UInt8) :
    utf8Decode (encodeChar c ++ rest) = some (c, rest) := by
  -- the groups of six bits of the continuation bytes
  have h64 : ∀ k, c / 2 ^ k % 64 < 64 := fun k => Nat.mod_lt _ (by decide)
  have h0 : c % 64 < 64 := Nat.mod_lt _ (by decide)
  by_cases h1 : c < 0x80
  · have hb : (UInt8.ofNat c).toNat = c := toNat_ofNat (by omega)
    rw [encodeChar_one h1, List.singleton_append, utf8Decode_one (by rw [hb]; exact h1), hb]
  by_cases h2 : c < 0x800
  · have hx : c >>> 6 < 32 := by rw [Nat.shiftRight_eq_div_pow]; omega
    have hb : (UInt8.ofNat (0xc0 ||| c >>> 6)).toNat = 0xc0 ||| c >>> 6 :=
      toNat_ofNat ((by decide : ∀ x < 32, 0xc0 ||| x < 256) _ hx)
    rw [encodeChar_two (by omega) h2, List.cons_append, List.singleton_append,
      utf8Decode_two (by rw [hb]; exact utf8Length_two hx), hb, firstBits_two hx, toNat_cont_zero,
      cont_bits h0, shift_or h0, Nat.shiftRight_eq_div_pow]
    congr 2
    omega
  by_cases h3 : c < 0x10000
  · have hx : c >>> 12 < 16 := by rw [Nat.shiftRight_eq_div_pow]; omega
    have hb : (UInt8.ofNat (0xe0 ||| c >>> 12)).toNat = 0xe0 ||| c >>> 12 :=
      toNat_ofNat ((by decide : ∀ x < 16, 0xe0 ||| x < 256) _ hx)
    rw [encodeChar_three (by omega) h3, List.cons_append, List.cons_append, List.singleton_append,
      utf8Decode_three (by rw [hb]; exact utf8Length_three hx), hb, firstBits_three hx, toNat_cont,
      toNat_cont_zero, cont_bits (h64 6), cont_bits h0, shift_or (h64 6), shift_or h0,
      Nat.shiftRight_eq_div_pow]
    congr 2
    omega
  · have hx : c >>> 18 < 8 := by rw [Nat.shiftRight_eq_div_pow]; omega
    have hb : (UInt8.ofNat (0xf0 ||| c >>> 18)).toNat = 0xf0 ||| c >>> 18 :=
      toNat_ofNat ((by decide : ∀ x < 8, 0xf0 ||| x < 256) _ hx)
    rw [encodeChar_four (by omega) hc, List.cons_append, List.cons_append, List.cons_append,
      List.singleton_append, utf8Decode_four (by rw [hb]; exact utf8Length_four hx), hb,
      firstBits_four hx, toNat_cont, toNat_cont, toNat_cont_zero, cont_bits (h64 12),
      cont_bits (h64 6), cont_bits h0, shift_or (h64 12), shift_or (h64 6), shift_or h0,
      Nat.shiftRight_eq_div_pow]
    congr 2
    omega

theorem encodeChar_ne_nil {c : ℕ} (hc : c < 0x110000) : encodeChar c ≠ [] := by
  unfold encodeChar pushCharacter
  split_ifs <;> simp

/-- The bytes of a character from `0x80` on all have their high bit set: none is an ASCII byte. -/
theorem le_toNat_of_mem_encodeChar {c : ℕ} (hc : 0x80 ≤ c) {b : UInt8} (hb : b ∈ encodeChar c) :
    0x80 ≤ b.toNat := by
  -- a continuation byte is `0x80` or'ed with six bits
  have hcont : ∀ y, 0x80 ≤ (UInt8.ofNat (0x80 ||| y &&& 0x3f)).toNat := fun y => by
    rw [toNat_cont_zero]
    exact Nat.left_le_or
  by_cases h2 : c < 0x800
  · have hx : c >>> 6 < 32 := by rw [Nat.shiftRight_eq_div_pow]; omega
    rw [encodeChar_two hc h2, List.mem_cons, List.mem_singleton] at hb
    rcases hb with rfl | rfl
    · exact (by decide : ∀ x < 32, 0x80 ≤ (UInt8.ofNat (0xc0 ||| x)).toNat) _ hx
    · exact hcont c
  by_cases h3 : c < 0x10000
  · have hx : c >>> 12 < 16 := by rw [Nat.shiftRight_eq_div_pow]; omega
    rw [encodeChar_three (by omega) h3, List.mem_cons, List.mem_cons, List.mem_singleton] at hb
    rcases hb with rfl | rfl | rfl
    · exact (by decide : ∀ x < 16, 0x80 ≤ (UInt8.ofNat (0xe0 ||| x)).toNat) _ hx
    · exact hcont _
    · exact hcont c
  by_cases h4 : c < 0x110000
  · have hx : c >>> 18 < 8 := by rw [Nat.shiftRight_eq_div_pow]; omega
    rw [encodeChar_four (by omega) h4, List.mem_cons, List.mem_cons, List.mem_cons,
      List.mem_singleton] at hb
    rcases hb with rfl | rfl | rfl | rfl
    · exact (by decide : ∀ x < 8, 0x80 ≤ (UInt8.ofNat (0xf0 ||| x)).toNat) _ hx
    · exact hcont _
    · exact hcont _
    · exact hcont c
  · rw [encodeChar_of_le (by omega)] at hb
    exact absurd hb List.not_mem_nil

/-! ## Strings -/

theorem characters_encodeChar {c : ℕ} (hc : c < 0x110000) (n : ℕ) (rest : List UInt8) :
    characters (n + 1) (encodeChar c ++ rest) = c :: characters n rest := by
  have hinv : c ≠ characterInvalid := by
    unfold characterInvalid
    omega
  simp only [characters, utf8Decode_encodeChar hc, if_neg hinv]

/-- `string_foreach` over the bytes of characters below `0x110000` gives them back. -/
theorem characters_encode {cs : List ℕ} (hcs : ∀ c ∈ cs, c < 0x110000) {n : ℕ}
    (hn : (encode cs).length ≤ n) : characters n (encode cs) = cs := by
  induction cs generalizing n with
  | nil => cases n <;> rfl
  | cons c cs ih =>
    have hc := hcs c List.mem_cons_self
    have hne := encodeChar_ne_nil hc
    rw [encode_cons, List.length_append] at hn
    obtain ⟨m, rfl⟩ : ∃ m, n = m + 1 := ⟨n - 1, by have := List.length_pos_iff.mpr hne; omega⟩
    rw [encode_cons, characters_encodeChar hc,
      ih (fun d hd => hcs d (List.mem_cons_of_mem c hd)) (by have := List.length_pos_iff.mpr hne; omega)]

theorem stringCharacters_encode {cs : List ℕ} (hcs : ∀ c ∈ cs, c < 0x110000) :
    stringCharacters (encode cs) = cs :=
  characters_encode hcs le_rfl

/-! ## Texts -/

/-- `b` is the UTF-8 encoding of the characters `cs`, each below `0x110000`. -/
def Encodes (b : List UInt8) (cs : List ℕ) : Prop := (∀ c ∈ cs, c < 0x110000) ∧ encode cs = b

instance (b : List UInt8) (cs : List ℕ) : Decidable (Encodes b cs) :=
  inferInstanceAs (Decidable (_ ∧ _))

/-- A string that is the UTF-8 encoding of its own characters. -/
def IsText (s : List UInt8) : Prop := Encodes s (stringCharacters s)

instance (s : List UInt8) : Decidable (IsText s) := inferInstanceAs (Decidable (Encodes _ _))

/-- `string_foreach` reads back the characters a text encodes. -/
theorem Encodes.stringCharacters_eq {b : List UInt8} {cs : List ℕ} (h : Encodes b cs) :
    stringCharacters b = cs := by
  rw [← h.2]
  exact stringCharacters_encode h.1

theorem isText_iff {s : List UInt8} : IsText s ↔ ∃ cs, Encodes s cs := by
  constructor
  · intro h
    exact ⟨_, h⟩
  · rintro ⟨cs, h⟩
    rw [IsText, h.stringCharacters_eq]
    exact h

theorem Encodes.append {a b : List UInt8} {as bs : List ℕ} (ha : Encodes a as) (hb : Encodes b bs) :
    Encodes (a ++ b) (as ++ bs) :=
  ⟨fun c hc => (List.mem_append.mp hc).elim (ha.1 c) (hb.1 c), by rw [encode_append, ha.2, hb.2]⟩

theorem Encodes.ascii {x : ℕ} (hx : x < 0x80) : Encodes [UInt8.ofNat x] [x] := by
  refine ⟨fun c hc => ?_, ?_⟩
  · rw [List.mem_singleton.mp hc]
    omega
  · simp [encode, encodeChar, pushCharacter, hx]

theorem Encodes.cons {x : ℕ} (hx : x < 0x80) {b : List UInt8} {cs : List ℕ} (h : Encodes b cs) :
    Encodes (UInt8.ofNat x :: b) (x :: cs) :=
  (Encodes.ascii hx).append h

end Nanos.Utf8
