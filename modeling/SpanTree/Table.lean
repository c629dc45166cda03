/-
SpanTree.Table — finite maps from strings of bytes, listed in the byte
order of their keys.

A table is the list of its entries. Insertion keeps the keys strictly
increasing, so that two tables with the same entries are the same list
and equality of tables is equality of maps. Keys are compared as their
bytes: an embedded NUL is a byte like any other and a proper initial
part comes first. What the keys are is left open, as long as each stands
for its bytes. They are strings in UTF-8 where nothing else is said; a
list of bytes need not be the form of a string.
-/

namespace SpanTree

/-- Keys of one kind, each of which stands for its bytes. -/
class Key (κ : Type) where
  /-- The bytes of a key. -/
  bytes : κ → List UInt8
  /-- Two keys with the same bytes are the same key. -/
  bytes_injective {a b : κ} (h : bytes a = bytes b) : a = b

instance : Key String where
  bytes s := s.toUTF8.data.toList
  bytes_injective h := String.toByteArray_inj.mp (ByteArray.ext (Array.toList_inj.mp h))

instance : Key (List UInt8) where
  bytes := id
  bytes_injective h := h

/-- The strict order of keys. -/
def keyBefore {κ : Type} [Key κ] (a b : κ) : Bool := decide (Key.bytes a < Key.bytes b)

/-- A finite map, from strings unless another kind of keys is named. -/
structure Table (α : Type) (κ : Type := String) where
  /-- Keys with their values, in key order. -/
  entries : List (κ × α) := []
deriving DecidableEq, Repr

namespace Table

variable {α κ : Type} [DecidableEq κ] [Key κ]

/-- The map without keys. -/
def empty : Table α κ := ⟨[]⟩

/-- Whether the map has no key. -/
def isEmpty (t : Table α κ) : Bool := t.entries.isEmpty

/-- The number of keys. -/
def size (t : Table α κ) : Nat := t.entries.length

/-- The value of a key. -/
def get? (t : Table α κ) (key : κ) : Option α :=
  (t.entries.find? fun e => e.1 == key).map (·.2)

/-- Whether the map has this key. -/
def contains (t : Table α κ) (key : κ) : Bool :=
  t.entries.any fun e => e.1 == key

/-- Insertion into a list of entries in key order. -/
def insertEntry (key : κ) (value : α) : List (κ × α) → List (κ × α)
  | [] => [(key, value)]
  | e :: rest =>
    if e.1 = key then (key, value) :: rest
    else if keyBefore key e.1 then (key, value) :: e :: rest
    else e :: insertEntry key value rest

/-- Gives a key a value, whether or not it had one. -/
def insert (t : Table α κ) (key : κ) (value : α) : Table α κ :=
  ⟨insertEntry key value t.entries⟩

/-- Gives a key a value, unless it has one. -/
def insertIfNew (t : Table α κ) (key : κ) (value : α) : Table α κ :=
  if t.contains key then t else t.insert key value

/-- Drops a key. -/
def erase (t : Table α κ) (key : κ) : Table α κ :=
  ⟨t.entries.filter fun e => e.1 != key⟩

/-- The map of a list of pairs in which the first of equal keys counts. -/
def ofPairs (pairs : List (κ × α)) : Table α κ :=
  pairs.foldl (fun t e => t.insertIfNew e.1 e.2) empty

end Table

/-- The properties of a span: keys and values whose meaning belongs to
the host of the tree. A span with an empty list is a default span. -/
abbrev PropertyList (κ : Type := String) := Table κ κ

namespace PropertyList

variable {κ : Type} [DecidableEq κ] [Key κ]

/-- Inserts or overwrites. -/
def put (p : PropertyList κ) (key value : κ) : PropertyList κ := p.insert key value

/-- Drops a key and says whether it was there. -/
def remove (p : PropertyList κ) (key : κ) : PropertyList κ × Bool :=
  (p.erase key, p.contains key)

/-- Drops all keys. -/
def clear (_ : PropertyList κ) : PropertyList κ := {}

end PropertyList

end SpanTree
