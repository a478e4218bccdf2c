import Mathlib

/-!
# Addresses and networks of a condition

`in_cidr` asks whether an address lies in a network.  `ParseIPAddress` unmaps an IPv4-mapped address
(`::ffff:a.b.c.d`), and the binding unmaps the network, **if its prefix is at least 96 bits long**.
`net/netip` is taken as documented; addresses and networks stand here as `netip` has parsed them.

* `Addr`, `Network` — `netip.Addr` and `netip.Prefix`, with `unmap` and `contains`.
* `inCIDR` — `ipaddressCELBinaryBinding`.
* **`inCIDR_mapped_iff`** — for an IPv4 address and a network of IPv4 addresses, in either notation,
  the answer is the match of the 128-bit forms if and only if their prefix has 96 bits or more.
* **`short_prefix_never_matches`** — a shorter one matches no address, and ought to match all.
-/

namespace Kengen.Condition

/-- `netip.Addr`, without a zone. -/
inductive Addr where
  | v4 (a : BitVec 32)
  | v6 (a : BitVec 128)
deriving DecidableEq

/-- `netip.Prefix`: the address and the number of bits that count. -/
structure Network where
  addr : Addr
  bits : ℕ

variable (a : BitVec 32)

/-- The IPv4-mapped IPv6 address. -/
def mapped : BitVec 128 := (0xffff : BitVec 96) ++ a

/-- `Unmap`. -/
def Addr.unmap : Addr → Addr
  | .v4 a => .v4 a
  | .v6 a => if a = mapped (a.setWidth 32) then .v4 (a.setWidth 32) else .v6 a

/-- `Is4`. -/
def Addr.is4 : Addr → Bool
  | .v4 _ => true
  | .v6 _ => false

/-- The first bits of two addresses are equal. -/
def matchBits {w : ℕ} (bits : ℕ) (x y : BitVec w) : Bool :=
  decide (∀ i < bits, x.getMsbD i = y.getMsbD i)

/-- `Contains`: no address of one family lies in a network of the other. -/
def Network.contains (network : Network) (ip : Addr) : Bool :=
  match network.addr, ip with
  | .v4 n, .v4 a => matchBits network.bits n a
  | .v6 n, .v6 a => matchBits network.bits n a
  | _, _ => false

/-- `ParseIPAddress`, after `ParseAddr`. -/
def parseIPAddress (addr : Addr) : Addr := addr.unmap

/-- `ipaddressCELBinaryBinding`, after `ParsePrefix`. -/
def inCIDR (ipaddr : Addr) (network : Network) : Bool :=
  let addr := network.addr.unmap
  if addr.is4 ∧ 96 ≤ network.bits then Network.contains ⟨addr, network.bits - 96⟩ ipaddr
  else network.contains ipaddr

/-- A valid network of IPv4 addresses as a network of their 128-bit forms. -/
inductive Network.Maps : Network → BitVec 128 → ℕ → Prop
  | v4 {n : BitVec 32} {bits : ℕ} (hbits : bits ≤ 32) : Maps ⟨.v4 n, bits⟩ (mapped n) (bits + 96)
  | v6 {n : BitVec 32} {bits : ℕ} (hbits : bits ≤ 128) : Maps ⟨.v6 (mapped n), bits⟩ (mapped n) bits

/-! ### The 128-bit forms -/

theorem getMsbD_mapped (i : ℕ) :
    (mapped a).getMsbD i = if 96 ≤ i then a.getMsbD (i - 96) else (0xffff : BitVec 96).getMsbD i := by
  rw [mapped, BitVec.getMsbD_append]

theorem unmap_mapped : (Addr.v6 (mapped a)).unmap = .v4 a := by
  have hlow : (mapped a).setWidth 32 = a := BitVec.setWidth_append_eq_right
  rw [Addr.unmap, hlow, if_pos rfl]

/-- Past the first 96 bits the IPv4 addresses are compared. -/
theorem matchBits_mapped_add (bits : ℕ) (n a : BitVec 32) :
    matchBits (bits + 96) (mapped n) (mapped a) = matchBits bits n a := by
  rw [matchBits, matchBits, decide_eq_decide]
  simp only [getMsbD_mapped]
  constructor
  · intro h i hi
    simpa using h (i + 96) (by omega)
  · intro h i hi
    split
    · exact h (i - 96) (by omega)
    · rfl

/-- The first 96 bits are those of every IPv4 address. -/
theorem matchBits_mapped_of_le {bits : ℕ} (hbits : bits ≤ 96) (n a : BitVec 32) :
    matchBits bits (mapped n) (mapped a) = true := by
  rw [matchBits, decide_eq_true_eq]
  intro i hi
  rw [getMsbD_mapped, getMsbD_mapped, if_neg (by omega), if_neg (by omega)]

/-! ### The binding -/

theorem inCIDR_v4 {n a : BitVec 32} {bits : ℕ} (hbits : bits ≤ 32) :
    inCIDR (.v4 a) ⟨.v4 n, bits⟩ = matchBits bits n a := by
  rw [inCIDR, if_neg (fun h => absurd h.2 (by simp only; omega))]
  rfl

theorem inCIDR_v6 {n a : BitVec 32} {bits : ℕ} (hbits : 96 ≤ bits) :
    inCIDR (.v4 a) ⟨.v6 (mapped n), bits⟩ = matchBits (bits - 96) n a := by
  simp only [inCIDR, unmap_mapped]
  rw [if_pos ⟨rfl, hbits⟩]
  rfl

/-- **A network whose prefix is shorter than 96 bits contains no IPv4 address.** -/
theorem short_prefix_never_matches {n a : BitVec 32} {bits : ℕ} (hbits : bits < 96) :
    inCIDR (.v4 a) ⟨.v6 (mapped n), bits⟩ = false := by
  simp only [inCIDR]
  rw [if_neg (fun h => absurd h.2 (by omega))]
  rfl

/-- **The notation of an IPv4 address does not matter**, and the answer is the match of the 128-bit
forms, if and only if their prefix has at least 96 bits. -/
theorem inCIDR_mapped_iff (network : Network) (n : BitVec 128) (bits : ℕ)
    (hmaps : network.Maps n bits) :
    (inCIDR (parseIPAddress (.v4 a)) network = inCIDR (parseIPAddress (.v6 (mapped a))) network
      ∧ inCIDR (parseIPAddress (.v4 a)) network = matchBits bits n (mapped a)) ↔ 96 ≤ bits := by
  have hparse : parseIPAddress (.v6 (mapped a)) = parseIPAddress (.v4 a) := unmap_mapped a
  have hv4 : parseIPAddress (.v4 a) = .v4 a := rfl
  rw [hparse, hv4, eq_self, true_and]
  cases hmaps with
  | v4 hbits => exact iff_of_true (by rw [inCIDR_v4 hbits, matchBits_mapped_add]) (by omega)
  | @v6 n _ hbits =>
    by_cases h : 96 ≤ bits
    · refine iff_of_true ?_ h
      rw [inCIDR_v6 h, ← matchBits_mapped_add, Nat.sub_add_cancel h]
    · refine iff_of_false ?_ h
      rw [short_prefix_never_matches (by omega), matchBits_mapped_of_le (by omega)]
      exact Bool.false_ne_true

/-- `10.0.0.1` in `10.0.0.0/8`, the network in IPv6 notation. -/
theorem inCIDR_mapped_private :
    inCIDR (parseIPAddress (.v4 0x0a000001)) ⟨.v6 (mapped 0x0a000000), 104⟩
      = matchBits 104 (mapped 0x0a000000) (mapped 0x0a000001) :=
  ((inCIDR_mapped_iff 0x0a000001 _ _ 104 (.v6 (by decide))).mpr (by decide)).2

/-- **`10.0.0.1` is not found in `::ffff:10.0.0.1/95`**, although all 95 bits match. -/
theorem short_prefix_misses :
    inCIDR (parseIPAddress (.v4 0x0a000001)) ⟨.v6 (mapped 0x0a000001), 95⟩ = false
      ∧ matchBits 95 (mapped 0x0a000001) (mapped 0x0a000001) = true :=
  ⟨short_prefix_never_matches (by decide), matchBits_mapped_of_le (by decide) _ _⟩

end Kengen.Condition
