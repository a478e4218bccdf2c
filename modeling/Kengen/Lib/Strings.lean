import Mathlib

/-!
# Strings of bytes

A Go string is any sequence of bytes.  The functions of its standard library search for a byte or
compare bytes; only a loop over a string decodes UTF-8, where every byte that is not part of a
well-formed encoding counts as one character `U+FFFD`.

* `cut`, `cutLast` — the parts before and after the first and the last occurrence of a byte.
* `runes` — the characters that a loop over the string meets, each with its position.
* **`runes_append_ascii`** — an ASCII byte separates a string: the characters before and after it do
  not depend on the other side.
* **`mem_runes_ascii`** — the ASCII characters of a string are its ASCII bytes.

The bytes are arbitrary: nothing assumes that a string is valid UTF-8.
-/

namespace Kengen.Strings

open List

/-- A string of bytes. -/
abbrev Str := List UInt8

/-- A string literal of ASCII characters. -/
def str (s : String) : Str := s.toList.map fun c => UInt8.ofNat c.toNat

/-- The byte of an ASCII character. -/
def byte (c : Char) : UInt8 := UInt8.ofNat c.toNat

/-! ### Searching for a byte -/

/-- The parts before and after the first occurrence of a byte. -/
def cut (c : UInt8) : Str → Option (Str × Str)
  | [] => none
  | b :: s => if b = c then some ([], s) else (cut c s).map fun p => (b :: p.1, p.2)

/-- The parts before and after the last occurrence of a byte. -/
def cutLast (c : UInt8) : Str → Option (Str × Str)
  | [] => none
  | b :: s =>
    match cutLast c s with
    | some p => some (b :: p.1, p.2)
    | none => if b = c then some ([], s) else none

section Cut

variable {c : UInt8}

theorem cut_append {a : Str} (ha : c ∉ a) (b : Str) : cut c (a ++ c :: b) = some (a, b) := by
  induction a with
  | nil => simp [cut]
  | cons x a ih =>
    obtain ⟨hx, ha⟩ : c ≠ x ∧ c ∉ a := by simpa using ha
    simp [cut, Ne.symm hx, ih ha]

theorem cut_eq_none {s : Str} : cut c s = none ↔ c ∉ s := by
  induction s with
  | nil => simp [cut]
  | cons b s ih =>
    by_cases hb : b = c
    · simp [cut, hb]
    · simp [cut, hb, ih, Ne.symm hb]

/-- What a cut finds. -/
theorem eq_of_cut {s a b : Str} (h : cut c s = some (a, b)) : s = a ++ c :: b ∧ c ∉ a := by
  induction s generalizing a with
  | nil => cases h
  | cons x s ih =>
    simp only [cut] at h
    split at h
    · rename_i hx
      obtain ⟨rfl, rfl⟩ := Prod.mk.inj (Option.some.inj h)
      exact ⟨by simp [hx], not_mem_nil⟩
    · rename_i hx
      obtain ⟨p, hp, heq⟩ := Option.map_eq_some_iff.mp h
      obtain ⟨rfl, rfl⟩ := Prod.mk.inj heq
      obtain ⟨rfl, hmem⟩ := ih hp
      exact ⟨rfl, not_mem_cons_of_ne_of_not_mem (Ne.symm hx) hmem⟩

theorem cutLast_eq_none {s : Str} : cutLast c s = none ↔ c ∉ s := by
  induction s with
  | nil => simp [cutLast]
  | cons b s ih =>
    simp only [cutLast]
    split
    · rename_i p hp
      have hmem : c ∈ s := by
        by_contra hnot
        rw [ih.mpr hnot] at hp
        cases hp
      simp [hmem]
    · rename_i hnone
      have hnot := ih.mp hnone
      by_cases hb : b = c
      · simp [hb]
      · simp [hb, hnot, Ne.symm hb]

theorem cutLast_append {b : Str} (hb : c ∉ b) (a : Str) :
    cutLast c (a ++ c :: b) = some (a, b) := by
  induction a with
  | nil => simp [cutLast, cutLast_eq_none.mpr hb]
  | cons x a ih => simp [cutLast, ih]

/-- Two strings cut at the first `c`. -/
theorem cut_first {a a' b b' : Str} (ha : c ∉ a) (ha' : c ∉ a') (h : a ++ c :: b = a' ++ c :: b') :
    a = a' ∧ b = b' := by
  have hcut := congrArg (cut c) h
  rw [cut_append ha, cut_append ha'] at hcut
  exact Prod.mk.inj (Option.some.inj hcut)

/-- Two strings cut at the last `c`. -/
theorem cut_last {a a' b b' : Str} (hb : c ∉ b) (hb' : c ∉ b') (h : a ++ c :: b = a' ++ c :: b') :
    a = a' ∧ b = b' := by
  have hcut := congrArg (cutLast c) h
  rw [cutLast_append hb, cutLast_append hb'] at hcut
  exact Prod.mk.inj (Option.some.inj hcut)

end Cut

/-! ### Characters -/

/-- The character that stands for a byte that is no part of an encoding. -/
def runeError : ℕ := 0xFFFD

/-- A continuation byte between two bounds. -/
def within (low high : UInt8) (b : UInt8) : Bool := decide (low ≤ b) && decide (b ≤ high)

/-- The bits that a continuation byte contributes. -/
def tailBits (b : UInt8) : ℕ := b.toNat % 64

/-- The bounds of the byte after the first one. -/
def secondBounds (b : UInt8) : UInt8 × UInt8 :=
  if b = 0xE0 then (0xA0, 0xBF) else if b = 0xED then (0x80, 0x9F)
  else if b = 0xF0 then (0x90, 0xBF) else if b = 0xF4 then (0x80, 0x8F) else (0x80, 0xBF)

/-- `DecodeRune` of a string that starts with `b`: the character and the number of bytes after the
first that it takes. -/
def decodeRune (b : UInt8) (rest : Str) : ℕ × ℕ :=
  if b < 0x80 then (b.toNat, 0)
  else if b < 0xC2 then (runeError, 0)
  else if b < 0xE0 then
    match rest with
    | c :: _ => if within 0x80 0xBF c then (b.toNat % 32 * 64 + tailBits c, 1) else (runeError, 0)
    | _ => (runeError, 0)
  else if b < 0xF0 then
    match rest with
    | c :: d :: _ =>
      if within (secondBounds b).1 (secondBounds b).2 c && within 0x80 0xBF d then
        (b.toNat % 16 * 4096 + tailBits c * 64 + tailBits d, 2)
      else (runeError, 0)
    | _ => (runeError, 0)
  else if b < 0xF5 then
    match rest with
    | c :: d :: e :: _ =>
      if within (secondBounds b).1 (secondBounds b).2 c && within 0x80 0xBF d && within 0x80 0xBF e then
        (b.toNat % 8 * 262144 + tailBits c * 4096 + tailBits d * 64 + tailBits e, 3)
      else (runeError, 0)
    | _ => (runeError, 0)
  else (runeError, 0)

/-- The characters of a string from position `ndx` on, after `skip` bytes that belong to the
character before. -/
def runesFrom (ndx : ℕ) : ℕ → Str → List (ℕ × ℕ)
  | _, [] => []
  | skip + 1, _ :: s => runesFrom (ndx + 1) skip s
  | 0, b :: s => (ndx, (decodeRune b s).1) :: runesFrom (ndx + 1) (decodeRune b s).2 s

/-- The characters of a string, with their positions. -/
def runes (s : Str) : List (ℕ × ℕ) := runesFrom 0 0 s

section Runes

variable {x : UInt8}

theorem decodeRune_ascii (hx : x < 0x80) (rest : Str) : decodeRune x rest = (x.toNat, 0) := by
  simp [decodeRune, hx]

/-- No ASCII byte is a continuation byte. -/
theorem within_ascii (hx : x < 0x80) {low : UInt8} (hlow : 0x80 ≤ low) (high : UInt8) :
    within low high x = false := by
  have hlt : ¬ low ≤ x := UInt8.not_le.mpr (UInt8.lt_of_lt_of_le hx hlow)
  simp [within, hlt]

theorem secondBounds_low (b : UInt8) : 0x80 ≤ (secondBounds b).1 := by
  unfold secondBounds
  split_ifs <;> decide

/-- **A character never reaches over an ASCII byte.** -/
theorem decodeRune_append (hx : x < 0x80) (b : UInt8) (rest t : Str) :
    decodeRune b (rest ++ x :: t) = decodeRune b rest := by
  have htail := within_ascii hx (by decide : (0x80 : UInt8) ≤ 0x80) 0xBF
  have hsecond := within_ascii hx (secondBounds_low b) (secondBounds b).2
  -- at most three bytes after the first are looked at
  rcases rest with _ | ⟨c, _ | ⟨d, _ | ⟨e, rest⟩⟩⟩ <;> rcases t with _ | ⟨y, _ | ⟨z, t⟩⟩ <;>
    simp [decodeRune, htail, hsecond]

theorem decodeRune_length (b : UInt8) (rest : Str) : (decodeRune b rest).2 ≤ rest.length := by
  fun_cases decodeRune b rest <;> simp

theorem runesFrom_append_ascii (hx : x < 0x80) (a t : Str) {ndx skip : ℕ} (hskip : skip ≤ a.length) :
    runesFrom ndx skip (a ++ x :: t) = runesFrom ndx skip a
      ++ (ndx + a.length, x.toNat) :: runesFrom (ndx + a.length + 1) 0 t := by
  induction a generalizing ndx skip with
  | nil =>
    obtain rfl : skip = 0 := Nat.le_zero.mp hskip
    simp [runesFrom, decodeRune_ascii hx]
  | cons b a ih =>
    have hlength : ndx + (b :: a).length = ndx + 1 + a.length := by
      simp only [length_cons]
      omega
    cases skip with
    | zero =>
      simp only [cons_append, runesFrom, decodeRune_append hx, hlength]
      rw [ih (decodeRune_length b a)]
    | succ =>
      simp only [cons_append, runesFrom, hlength]
      exact ih (Nat.le_of_succ_le_succ hskip)

/-- **An ASCII byte separates a string.** -/
theorem runes_append_ascii (hx : x < 0x80) (a t : Str) :
    runes (a ++ x :: t) = runes a ++ (a.length, x.toNat) :: runesFrom (a.length + 1) 0 t := by
  rw [runes, runesFrom_append_ascii hx a t (Nat.zero_le _), Nat.zero_add]
  rfl

/-- The second byte is large where the first one leaves its bits free. -/
theorem tailBits_second {b c : UInt8} (h : within (secondBounds b).1 (secondBounds b).2 c = true) :
    (b.toNat = 0xE0 → 32 ≤ tailBits c) ∧ (b.toNat = 0xF0 → 16 ≤ tailBits c) := by
  constructor
  · intro hb
    obtain rfl : b = 0xE0 := UInt8.toNat_inj.mp hb
    have hlow : 0xA0 ≤ c ∧ c ≤ 0xBF := by simpa [within, secondBounds] using h
    simp only [UInt8.le_iff_toNat_le, UInt8.reduceToNat] at hlow
    simp only [tailBits]
    omega
  · intro hb
    obtain rfl : b = 0xF0 := UInt8.toNat_inj.mp hb
    have hlow : 0x90 ≤ c ∧ c ≤ 0xBF := by simpa [within, secondBounds] using h
    simp only [UInt8.le_iff_toNat_le, UInt8.reduceToNat] at hlow
    simp only [tailBits]
    omega

/-- Only an ASCII byte is decoded to an ASCII character. -/
theorem ascii_of_decodeRune {b : UInt8} {rest : Str} (h : (decodeRune b rest).1 < 0x80) :
    b < 0x80 := by
  contrapose! h
  fun_cases decodeRune b rest
  case case6 hwithin | case9 hwithin =>
    simp only [Bool.and_eq_true] at hwithin
    have hsecond := tailBits_second (by tauto)
    simp only [UInt8.lt_iff_toNat_lt, UInt8.reduceToNat] at *
    omega
  all_goals
    simp only [runeError, UInt8.lt_iff_toNat_lt, UInt8.reduceToNat] at *
    omega

theorem mem_of_mem_runesFrom (hx : x < 0x80) {ndx skip i : ℕ} {s : Str}
    (h : (i, x.toNat) ∈ runesFrom ndx skip s) : x ∈ s := by
  induction s generalizing ndx skip with
  | nil => simp [runesFrom] at h
  | cons b s ih =>
    cases skip with
    | succ => exact mem_cons_of_mem _ (ih h)
    | zero =>
      rcases mem_cons.mp h with heq | h
      · have hrune : x.toNat = (decodeRune b s).1 := (Prod.mk.inj heq).2
        have hlt : (decodeRune b s).1 < 0x80 := by
          rw [← hrune]
          exact UInt8.lt_iff_toNat_lt.mp hx
        have hb : b < 0x80 := ascii_of_decodeRune hlt
        rw [decodeRune_ascii hb] at hrune
        rw [UInt8.toNat_inj.mp hrune]
        exact mem_cons_self
      · exact mem_cons_of_mem _ (ih h)

/-- **The ASCII characters of a string are its ASCII bytes.** -/
theorem mem_runes_ascii (hx : x < 0x80) {s : Str} : (∃ i, (i, x.toNat) ∈ runes s) ↔ x ∈ s := by
  constructor
  · rintro ⟨i, hi⟩
    exact mem_of_mem_runesFrom hx hi
  · intro hmem
    obtain ⟨a, t, rfl⟩ := append_of_mem hmem
    refine ⟨a.length, ?_⟩
    rw [runes_append_ascii hx]
    exact mem_append_right _ mem_cons_self

/-- The characters do not depend on where the string stands. -/
theorem runesFrom_map_snd (ndx ndx' skip : ℕ) (s : Str) :
    (runesFrom ndx skip s).map Prod.snd = (runesFrom ndx' skip s).map Prod.snd := by
  induction s generalizing ndx ndx' skip with
  | nil => rfl
  | cons b s ih =>
    cases skip with
    | zero => simp only [runesFrom, map_cons, ih (ndx + 1) (ndx' + 1)]
    | succ => exact ih _ _ _

end Runes

end Kengen.Strings
