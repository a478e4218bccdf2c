import Mathlib

/-!
# Codes that mark their own end

A code writes each value as a string of symbols.  Values are written one behind the other
without a separator, so a reader has to see where one ends.  The code of a value marks its
end if no other value, with anything behind it, is written the same way.

* `Delimits` — the code of a value marks its end.
* **`delimits_append`** — two codes behind each other.
* **`delimits_list`** — values of one code behind each other, when their number is known.
* `uvarint`, **`delimits_uvarint`** — numbers in base 128, least group first, with a mark on
  every byte but the last.
* `framed`, **`delimits_framed`** — a string of bytes behind its length.
* `littleEndian`, **`littleEndian_injective`** — numbers of a fixed number of bytes.
-/

namespace Kengen.Codes

open List

variable {σ α β : Type}

/-- No other value is written like `a` with something behind it. -/
def Delimits (enc : α → List σ) (a : α) : Prop :=
  ∀ b s t, enc a ++ s = enc b ++ t → a = b ∧ s = t

/-! ### Codes behind each other -/

/-- **Two codes behind each other** mark the end of the pair. -/
theorem delimits_append {enc : α → List σ} {enc' : β → List σ} {a : α} {b : β} (ha : Delimits enc a)
    (hb : Delimits enc' b) : Delimits (fun p : α × β => enc p.1 ++ enc' p.2) (a, b) := by
  intro p s t h
  rw [append_assoc, append_assoc] at h
  obtain ⟨h₁, h⟩ := ha _ _ _ h
  obtain ⟨h₂, h⟩ := hb _ _ _ h
  exact ⟨Prod.ext h₁ h₂, h⟩

/-- **A known number of values** behind each other. -/
theorem delimits_list {enc : α → List σ} {l l' : List α} (hl : ∀ a ∈ l, Delimits enc a)
    (hlength : l.length = l'.length) {s t : List σ}
    (h : l.flatMap enc ++ s = l'.flatMap enc ++ t) : l = l' ∧ s = t := by
  induction l generalizing l' with
  | nil =>
    obtain rfl := length_eq_zero_iff.mp hlength.symm
    exact ⟨rfl, h⟩
  | cons a l ih =>
    cases l' with
    | nil => cases hlength
    | cons b l' =>
      rw [flatMap_cons, flatMap_cons, append_assoc, append_assoc] at h
      obtain ⟨rfl, hrest⟩ := hl a mem_cons_self _ _ _ h
      obtain ⟨rfl, hend⟩ := ih (fun a ha => hl a (mem_cons_of_mem _ ha)) (Nat.succ.inj hlength)
        hrest
      exact ⟨rfl, hend⟩

/-- A code of constant length marks its end if it is injective. -/
theorem delimits_of_length {enc : α → List σ} (hinj : Function.Injective enc) {n : ℕ}
    (hlength : ∀ a, (enc a).length = n) (a : α) : Delimits enc a := by
  intro b s t h
  obtain ⟨h₁, h₂⟩ := append_inj h ((hlength a).trans (hlength b).symm)
  exact ⟨hinj h₁, h₂⟩

/-! ### Numbers of any size -/

/-- The base 128 groups of a number, least group first; all but the last are marked. -/
def uvarint (n : ℕ) : List UInt8 :=
  if n < 0x80 then [UInt8.ofNat n] else (UInt8.ofNat n ||| 0x80) :: uvarint (n / 0x80)
termination_by n
decreasing_by omega

theorem uvarint_last {n : ℕ} (h : n < 0x80) : uvarint n = [UInt8.ofNat n] := by
  rw [uvarint, if_pos h]

theorem uvarint_more {n : ℕ} (h : ¬ n < 0x80) :
    uvarint n = (UInt8.ofNat n ||| 0x80) :: uvarint (n / 0x80) := by
  rw [uvarint, if_neg h]

theorem toNat_last {n : ℕ} (h : n < 0x80) : (UInt8.ofNat n).toNat = n := by
  rw [UInt8.toNat_ofNat']
  omega

/-- A marked group: its seven bits, and the mark. -/
theorem toNat_marked (n : ℕ) : (UInt8.ofNat n ||| 0x80).toNat = n % 0x80 + 0x80 := by
  have hor : ∀ i : Fin 256, i.val ||| 0x80 = i.val % 0x80 + 0x80 := by decide +kernel
  have hbyte := hor ⟨n % 256, Nat.mod_lt n (by omega)⟩
  rw [UInt8.toNat_or, UInt8.toNat_ofNat']
  show n % 256 ||| 0x80 = _
  rw [hbyte]
  show n % 256 % 0x80 + 0x80 = _
  omega

/-- **A number marks its end.** -/
theorem delimits_uvarint (n : ℕ) : Delimits uvarint n := by
  induction n using Nat.strongRecOn with
  | ind n ih =>
    intro m s t h
    -- only the last group is below the mark
    by_cases hn : n < 0x80
    · by_cases hm : m < 0x80
      · rw [uvarint_last hn, uvarint_last hm] at h
        obtain ⟨hbyte, rfl⟩ := List.cons.inj h
        have hnat := congrArg UInt8.toNat hbyte
        rw [toNat_last hn, toNat_last hm] at hnat
        exact ⟨hnat, rfl⟩
      · rw [uvarint_last hn, uvarint_more hm] at h
        have hnat := congrArg UInt8.toNat (List.cons.inj h).1
        rw [toNat_last hn, toNat_marked] at hnat
        omega
    · by_cases hm : m < 0x80
      · rw [uvarint_more hn, uvarint_last hm] at h
        have hnat := congrArg UInt8.toNat (List.cons.inj h).1
        rw [toNat_last hm, toNat_marked] at hnat
        omega
      · rw [uvarint_more hn, uvarint_more hm, cons_append, cons_append] at h
        obtain ⟨hbyte, h⟩ := List.cons.inj h
        have hnat := congrArg UInt8.toNat hbyte
        rw [toNat_marked, toNat_marked] at hnat
        obtain ⟨hrest, rfl⟩ := ih (n / 0x80) (by omega) _ _ _ h
        exact ⟨by omega, rfl⟩

/-- A string of bytes behind its length. -/
def framed (bytes : List UInt8) : List UInt8 := uvarint bytes.length ++ bytes

/-- **The length of a string tells its end.** -/
theorem delimits_framed (bytes : List UInt8) : Delimits framed bytes := by
  intro bytes' s t h
  unfold framed at h
  rw [append_assoc, append_assoc] at h
  obtain ⟨hlength, h⟩ := delimits_uvarint _ _ _ _ h
  exact append_inj h hlength

/-! ### Numbers of a fixed size -/

/-- The lowest `width` bytes of a number, least first. -/
def littleEndian : ℕ → ℕ → List UInt8
  | 0, _ => []
  | width + 1, n => UInt8.ofNat n :: littleEndian width (n / 256)

theorem littleEndian_length (width n : ℕ) : (littleEndian width n).length = width := by
  induction width generalizing n with
  | zero => rfl
  | succ width ih => rw [littleEndian, length_cons, ih]

/-- **Numbers that fit are told apart.** -/
theorem littleEndian_injective {width m n : ℕ} (hm : m < 256 ^ width) (hn : n < 256 ^ width)
    (h : littleEndian width m = littleEndian width n) : m = n := by
  induction width generalizing m n with
  | zero => omega
  | succ width ih =>
    rw [Nat.pow_succ] at hm hn
    obtain ⟨hbyte, hrest⟩ := List.cons.inj h
    have hnat := congrArg UInt8.toNat hbyte
    rw [UInt8.toNat_ofNat', UInt8.toNat_ofNat'] at hnat
    have hdiv : m / 256 = n / 256 := ih (by omega) (by omega) hrest
    omega

end Kengen.Codes
