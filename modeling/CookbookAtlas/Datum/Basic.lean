/-! Values of data documents: what JSON, YAML and attribute literals stand for. Mappings keep
their members in order of first appearance. -/
namespace CookbookAtlas

/-- A number is an integer of at most 64 bits or a binary64 float, given by its bits. -/
inductive Number
  | int (value : Int)
  | float (bits : UInt64)
deriving DecidableEq

namespace Number

def leastInt : Int := -9223372036854775808
def greatestInt : Int := 9223372036854775807
def greatestUnsigned : Int := 18446744073709551615

end Number

inductive Datum
  | null
  | bool (value : Bool)
  | number (value : Number)
  | string (value : String)
  | array (items : List Datum)
  | object (members : List (String × Datum))

abbrev Members := List (String × Datum)

namespace Members

def get? : Members → String → Option Datum
  | [], _ => none
  | (k, v) :: rest, key => if k = key then some v else get? rest key

/-- Writes a member: a known key keeps its place and takes the new value, a new key comes last. -/
def insert : Members → String → Datum → Members
  | [], key, value => [(key, value)]
  | (k, v) :: rest, key, value =>
    if k = key then (k, value) :: rest else (k, v) :: insert rest key value

def keys (members : Members) : List String := members.map Prod.fst

def ofPairs (pairs : List (String × Datum)) : Members :=
  pairs.foldl (fun members p => insert members p.1 p.2) []

@[simp] theorem get?_insert_self (ms : Members) (k : String) (v : Datum) :
    get? (insert ms k v) k = some v := by
  induction ms with
  | nil => simp [insert, get?]
  | cons m ms ih =>
    obtain ⟨k', v'⟩ := m
    by_cases h : k' = k <;> simp [insert, get?, h, ih]

theorem get?_insert_ne (ms : Members) {k k' : String} (v : Datum) (h : k ≠ k') :
    get? (insert ms k v) k' = get? ms k' := by
  induction ms with
  | nil => simp [insert, get?, h]
  | cons m ms ih =>
    obtain ⟨k'', v''⟩ := m
    by_cases hk : k'' = k
    · subst hk; rw [insert, if_pos rfl, get?, get?, if_neg h, if_neg h]
    · rw [insert, if_neg hk, get?, get?, ih]

theorem get?_of_not_mem {ms : Members} {k : String} (h : k ∉ ms.keys) : ms.get? k = none := by
  induction ms with
  | nil => rfl
  | cons m ms ih =>
    obtain ⟨k', v'⟩ := m
    simp only [keys, List.map_cons, List.mem_cons, not_or] at h
    rw [get?, if_neg (Ne.symm h.1), ih h.2]

end Members

namespace Datum

def isMapping : Datum → Bool
  | .object _ => true
  | _ => false

def members : Datum → Members
  | .object ms => ms
  | _ => []

def string? : Datum → Option String
  | .string s => some s
  | _ => none

def emptyMapping : Datum := .object []

mutual
def size : Datum → Nat
  | .array items => 1 + sizeItems items
  | .object members => 1 + sizeMembers members
  | _ => 1

def sizeItems : List Datum → Nat
  | [] => 0
  | v :: rest => size v + sizeItems rest

def sizeMembers : List (String × Datum) → Nat
  | [] => 0
  | (_, v) :: rest => size v + sizeMembers rest
end

theorem one_le_size (v : Datum) : 1 ≤ size v := by
  cases v <;> simp [size]

end Datum
end CookbookAtlas
