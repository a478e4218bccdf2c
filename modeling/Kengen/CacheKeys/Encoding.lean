import Kengen.Lib.Codes

/-!
# How cache keys are written as bytes

`keys.Builder` appends fields to a byte buffer, each behind a tag that tells its type.  A
`structpb.Value` of the request's context is written by `PbValue.WriteTo`, which goes through the
nested lists and structs with a stack of its own.

* `PbValue` — a value.  The fields of a struct are a map, so two values are equal if they are
  equal as JSON values.
* `PbValue.encode` — the format, by recursion on the value.
* `writeLoop`, `PbValue.writeTo` — the loop of the source.
* **`writeTo_eq_encode`** — the loop writes the format.
* **`delimits_encode`** — the bytes of a value mark their end, so they determine the value.
-/

namespace Kengen.CacheKeys

open Codes List

/-! ### The builder -/

def tagNull : UInt8 := 0

def tagBool : UInt8 := 2

def tagUint64 : UInt8 := 3

def tagString : UInt8 := 4

def tagArray : UInt8 := 6

def tagMap : UInt8 := 7

def tagUnset : UInt8 := 11

/-- The bytes of a string. -/
def bytesOf (s : String) : List UInt8 := s.toByteArray.data.toList

theorem bytesOf_injective : Function.Injective bytesOf := by
  intro s s' h
  have hdata : s.toByteArray.data = s'.toByteArray.data := Array.toList_inj.mp h
  exact String.toByteArray_inj.mp (ByteArray.ext hdata)

/-- `EncodeNull`. -/
def encodeNull : List UInt8 := [tagNull]

/-- `EncodeUnset`. -/
def encodeUnset : List UInt8 := [tagUnset]

/-- `EncodeString`. -/
def encodeString (s : String) : List UInt8 := tagString :: framed (bytesOf s)

/-- `EncodeBool`. -/
def encodeBool (b : Bool) : List UInt8 := [tagBool, if b then 1 else 0]

/-- `EncodeUint64`. -/
def encodeUint64 (i : UInt64) : List UInt8 := tagUint64 :: littleEndian 8 i.toNat

/-- `EncodeArrayHeader`. -/
def encodeArrayHeader (n : ℕ) : List UInt8 := tagArray :: uvarint n

/-- `EncodeMapHeader`. -/
def encodeMapHeader (n : ℕ) : List UInt8 := tagMap :: uvarint n

theorem delimits_encodeString (s : String) : Delimits encodeString s := by
  intro s' u t h
  obtain ⟨hbytes, hrest⟩ := delimits_framed _ _ _ _ (List.cons.inj h).2
  exact ⟨bytesOf_injective hbytes, hrest⟩

theorem encodeUint64_injective : Function.Injective encodeUint64 := by
  intro i j h
  refine UInt64.toNat_inj.mp (littleEndian_injective ?_ ?_ (List.cons.inj h).2)
  · exact i.toNat_lt
  · exact j.toNat_lt

theorem delimits_encodeUint64 (i : UInt64) : Delimits encodeUint64 i :=
  delimits_of_length encodeUint64_injective
    (fun j => congrArg Nat.succ (littleEndian_length 8 j.toNat)) i

/-! ### Values -/

/-- A `structpb.Value`.  A number is given by `math.Float64bits`; a nil value has no kind. -/
inductive PbValue where
  | unset
  | null
  | bool (b : Bool)
  | number (bits : UInt64)
  | string (s : String)
  | list {n : ℕ} (values : Fin n → PbValue)
  | struct (keys : Finset String) (fields : keys → PbValue)

variable (keys : Finset String)

/-- The keys of a map, after `slices.Sort`.  UTF-8 keeps the order of the characters. -/
def sortedKeys : List keys :=
  (keys.sort (· ≤ ·)).attach.map fun k => ⟨k.1, (Finset.mem_sort _).mp k.2⟩

theorem sortedKeys_val :
    (sortedKeys keys).map Subtype.val = keys.sort (· ≤ ·) := by
  rw [sortedKeys, map_map]
  exact attach_map_subtype_val _

theorem mem_sortedKeys {keys : Finset String} (k : keys) : k ∈ sortedKeys keys := by
  have hk : k.1 ∈ (sortedKeys keys).map Subtype.val := by
    rw [sortedKeys_val]
    exact (Finset.mem_sort _).mpr k.2
  obtain ⟨k', hk', heq⟩ := mem_map.mp hk
  rwa [← Subtype.ext heq]

theorem sortedKeys_length : (sortedKeys keys).length = keys.card := by
  rw [← length_map Subtype.val, sortedKeys_val, Finset.length_sort]

/-- **The format of a value.** -/
def PbValue.encode : PbValue → List UInt8
  | .unset => encodeUnset
  | .null => encodeNull
  | .bool b => encodeBool b
  | .number bits => encodeUint64 bits
  | .string s => encodeString s
  | .list (n := n) values =>
    encodeArrayHeader n ++ (List.finRange n).flatMap fun i => (values i).encode
  | .struct keys fields =>
    encodeMapHeader keys.card
      ++ (sortedKeys keys).flatMap fun k => encodeString k.1 ++ (fields k).encode

/-! ### The loop of the source -/

/-- A value that is still to be written, with its key if it is an entry of a map. -/
structure Frame where
  key : Option String
  value : PbValue

/-- What the switch over the kind of a value writes. -/
def PbValue.header : PbValue → List UInt8
  | .unset => encodeUnset
  | .null => encodeNull
  | .bool b => encodeBool b
  | .number bits => encodeUint64 bits
  | .string s => encodeString s
  | .list (n := n) _ => encodeArrayHeader n
  | .struct keys _ => encodeMapHeader keys.card

/-- The frames that the switch pushes, in the order in which they are popped. -/
def PbValue.children : PbValue → List Frame
  | .list values => List.ofFn fun i => ⟨none, values i⟩
  | .struct keys fields => (sortedKeys keys).map fun k => ⟨some k.1, fields k⟩
  | _ => []

/-- The key of an entry is written in front of its value. -/
def Frame.keyBytes (f : Frame) : List UInt8 :=
  match f.key with
  | some k => encodeString k
  | none => []

/-- The number of values in a value. -/
def PbValue.size : PbValue → ℕ
  | .list values => 1 + ∑ i, (values i).size
  | .struct keys fields => 1 + ((sortedKeys keys).map fun k => (fields k).size).sum
  | _ => 1

/-- The number of values on a stack. -/
def stackSize (stack : List Frame) : ℕ := (stack.map fun f => f.value.size).sum

variable (v : PbValue)

theorem PbValue.stackSize_children : stackSize v.children < v.size := by
  cases v with
  | list values =>
    rw [children, stackSize, map_ofFn, sum_ofFn, size]
    show ∑ i, (values i).size < _
    omega
  | struct keys fields =>
    rw [children, stackSize, map_map, size]
    show ((sortedKeys keys).map fun k => (fields k).size).sum < _
    omega
  | unset | null | bool | number | string => exact Nat.zero_lt_one

/-- The loop of `WriteTo`; the top of the stack is the head of the list. -/
def writeLoop (stack : List Frame) (data : List UInt8) : List UInt8 :=
  match stack with
  | [] => data
  | current :: stack =>
    writeLoop (current.value.children ++ stack) (data ++ current.keyBytes ++ current.value.header)
termination_by stackSize stack
decreasing_by
  have hchildren := current.value.stackSize_children
  simp only [stackSize, map_append, sum_append, map_cons, sum_cons]
  simp only [stackSize] at hchildren
  omega

/-- `PbValue.WriteTo`. -/
def PbValue.writeTo : List UInt8 := writeLoop [⟨none, v⟩] []

/-- The format of a frame. -/
def Frame.encode (f : Frame) : List UInt8 := f.keyBytes ++ f.value.encode

theorem PbValue.encode_eq :
    v.encode = v.header ++ v.children.flatMap Frame.encode := by
  cases v with
  | list =>
    rw [encode, header, children, ofFn_eq_map, flatMap_map]
    rfl
  | struct =>
    rw [encode, header, children, flatMap_map]
    rfl
  | unset | null | bool => rfl
  | number | string => exact (append_nil _).symm

/-- What the loop still writes is the format of the frames on its stack. -/
theorem writeLoop_eq (stack : List Frame) (data : List UInt8) :
    writeLoop stack data = data ++ stack.flatMap Frame.encode := by
  induction stack, data using writeLoop.induct with
  | case1 => rw [writeLoop, flatMap_nil, append_nil]
  | case2 data current stack ih =>
    rw [writeLoop, ih, flatMap_append, flatMap_cons, Frame.encode,
      current.value.encode_eq]
    simp only [append_assoc]

/-- **The loop writes the format.** -/
theorem writeTo_eq_encode : v.writeTo = v.encode := by
  rw [PbValue.writeTo, writeLoop_eq]
  simp [Frame.encode, Frame.keyBytes]

/-! ### The bytes determine the value -/

/-- An entry of a map. -/
def encodeEntry (entry : String × PbValue) : List UInt8 :=
  encodeString entry.1 ++ entry.2.encode

variable (fields : keys → PbValue)

/-- The entries of a map in the order in which they are written. -/
def entries : List (String × PbValue) :=
  (sortedKeys keys).map fun k => (k.1, fields k)

theorem entries_fst :
    (entries keys fields).map Prod.fst = keys.sort (· ≤ ·) := by
  rw [entries, map_map]
  exact sortedKeys_val keys

/-- **A map is determined by its entries.** -/
theorem struct_of_entries {keys keys' : Finset String} {fields : keys → PbValue}
    {fields' : keys' → PbValue} (h : entries keys fields = entries keys' fields') :
    PbValue.struct keys fields = PbValue.struct keys' fields' := by
  have hsort : keys.sort (· ≤ ·) = keys'.sort (· ≤ ·) := by
    rw [← entries_fst keys fields, ← entries_fst keys' fields', h]
  obtain rfl : keys = keys' := by
    rw [← Finset.sort_toFinset keys (· ≤ ·), hsort, Finset.sort_toFinset]
  congr 1
  funext k
  have hk := map_inj_left.mp h k (mem_sortedKeys k)
  exact congrArg Prod.snd hk

theorem encode_list {n : ℕ} (values : Fin n → PbValue) :
    (PbValue.list values).encode
      = encodeArrayHeader n ++ (List.ofFn values).flatMap PbValue.encode := by
  rw [PbValue.encode, ofFn_eq_map, flatMap_map]

theorem encode_struct :
    (PbValue.struct keys fields).encode
      = encodeMapHeader keys.card ++ (entries keys fields).flatMap encodeEntry := by
  rw [PbValue.encode, entries, flatMap_map]
  rfl

/-- The kinds of values. -/
inductive Kind where
  | unset
  | null
  | bool
  | number
  | string
  | list
  | struct

def PbValue.kind : PbValue → Kind
  | .unset => .unset
  | .null => .null
  | .bool _ => .bool
  | .number _ => .number
  | .string _ => .string
  | .list _ => .list
  | .struct _ _ => .struct

/-- The first byte of a value. -/
def Kind.tag : Kind → UInt8
  | .unset => tagUnset
  | .null => tagNull
  | .bool => tagBool
  | .number => tagUint64
  | .string => tagString
  | .list => tagArray
  | .struct => tagMap

theorem Kind.tag_injective : Function.Injective Kind.tag := by
  intro k k' h
  cases k <;> cases k' <;> first | rfl | exact absurd h (by decide)

theorem encode_head : ∃ rest, v.encode = v.kind.tag :: rest := by
  cases v <;> exact ⟨_, rfl⟩

theorem kind_of_encode {v w : PbValue} {s t : List UInt8} (h : v.encode ++ s = w.encode ++ t) :
    v.kind = w.kind := by
  obtain ⟨rest, hv⟩ := encode_head v
  obtain ⟨rest', hw⟩ := encode_head w
  rw [hv, hw] at h
  exact Kind.tag_injective (List.cons.inj h).1

/-- **The bytes of a value mark their end.** -/
theorem delimits_encode : Delimits PbValue.encode v := by
  -- the first byte gives the kind, and lists and maps say how many values follow
  induction v with
  | unset | null =>
    intro w s t h
    cases w <;> cases kind_of_encode h
    exact ⟨rfl, (List.cons.inj h).2⟩
  | bool b =>
    intro w s t h
    cases w <;> cases kind_of_encode h
    obtain ⟨hb, hrest⟩ := List.cons.inj (List.cons.inj h).2
    refine ⟨?_, hrest⟩
    rename_i b'
    cases b <;> cases b' <;> first | rfl | exact absurd hb (by decide)
  | number bits =>
    intro w s t h
    cases w <;> cases kind_of_encode h
    obtain ⟨rfl, hrest⟩ := delimits_encodeUint64 bits _ _ _ h
    exact ⟨rfl, hrest⟩
  | string s =>
    intro w s t h
    cases w <;> cases kind_of_encode h
    obtain ⟨rfl, hrest⟩ := delimits_encodeString _ _ _ _ h
    exact ⟨rfl, hrest⟩
  | @list n values ih =>
    intro w s t h
    cases w <;> cases kind_of_encode h
    rename_i n' values'
    rw [encode_list, encode_list, append_assoc, append_assoc] at h
    obtain ⟨rfl, h⟩ := delimits_uvarint _ _ _ _ (List.cons.inj h).2
    obtain ⟨hvalues, hrest⟩ := delimits_list (forall_mem_ofFn_iff.mpr ih) (by simp) h
    exact ⟨congrArg PbValue.list (ofFn_injective hvalues), hrest⟩
  | struct keys fields ih =>
    intro w s t h
    cases w <;> cases kind_of_encode h
    rename_i keys' fields'
    rw [encode_struct, encode_struct, append_assoc, append_assoc] at h
    obtain ⟨hcard, h⟩ := delimits_uvarint _ _ _ _ (List.cons.inj h).2
    have hentries : ∀ entry ∈ entries keys fields, Delimits encodeEntry entry := by
      intro entry hentry
      obtain ⟨k, -, rfl⟩ := mem_map.mp hentry
      exact delimits_append (delimits_encodeString k.1) (ih k)
    have hlength : (entries keys fields).length = (entries keys' fields').length := by
      rw [entries, entries, length_map, length_map, sortedKeys_length, sortedKeys_length,
        hcard]
    obtain ⟨heq, hrest⟩ := delimits_list hentries hlength h
    exact ⟨struct_of_entries heq, hrest⟩

end Kengen.CacheKeys
