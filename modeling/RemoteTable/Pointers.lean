import RemoteTable.Ownership
import RemoteTable.Table

/-! # The table, pointer by pointer

The functions of `data.c`, `entry.c`, `list.c` and `table.c` on a memory in which every
`malloc` is an object of its own, with the pointers between the objects and with what is freed.
In `Entry`, `LinkedList` and `Table` an entry is a value of the node that holds it; here it is a
block that somebody has to free.

`junk` is what a block holds when it is handed out, by its address.  Blocks of structures and
arrays are assumed to be available, as are those of bytes when their size is one.
-/
namespace RemoteTable.Pointers
open CMem

/-! ## Objects -/

/-- `struct data_t`. -/
structure DataCell where
  datasize : Int
  data : Option Addr

/-- `struct entry_t`. -/
structure EntryCell where
  key : Option Addr
  value : Option Addr

/-- `struct node_t`. -/
structure NodeCell where
  entry : Option Addr
  next : Option Addr

/-- `struct list_t`; `list_create` leaves `tail` as it is. -/
structure ListCell where
  head : Option Addr
  tail : Option (Option Addr)

/-- `struct table_t`. -/
structure TableCell where
  n : Int
  listsPtr : Option Addr

/-- `MessageT`. -/
structure MessageCell where
  opcode : Int
  cType : Int
  len : Nat
  data : Option Addr

/-- What a block is used as. -/
inductive Object
  | bytes (b : Block)
  | data (d : DataCell)
  | entry (e : EntryCell)
  | node (n : NodeCell)
  | list (l : ListCell)
  | pointers (s : Slots (Option Addr))
  | table (t : TableCell)
  | message (msg : MessageCell)

namespace Object

def asBytes : Object → Option Block
  | bytes b => some b
  | _ => none

def asData : Object → Option DataCell
  | data d => some d
  | _ => none

def asEntry : Object → Option EntryCell
  | entry e => some e
  | _ => none

def asNode : Object → Option NodeCell
  | node n => some n
  | _ => none

def asList : Object → Option ListCell
  | list l => some l
  | _ => none

def asPointers : Object → Option (Slots (Option Addr))
  | pointers s => some s
  | _ => none

def asTable : Object → Option TableCell
  | table t => some t
  | _ => none

def asMessage : Object → Option MessageCell
  | message msg => some msg
  | _ => none

end Object

/-- `*p`, for a pointer to each kind of object. -/
abbrev bytesAt (p : Option Addr) : Prog Object Block := Prog.load Object.asBytes p
abbrev dataAt (p : Option Addr) : Prog Object DataCell := Prog.load Object.asData p
abbrev entryAt (p : Option Addr) : Prog Object EntryCell := Prog.load Object.asEntry p
abbrev nodeAt (p : Option Addr) : Prog Object NodeCell := Prog.load Object.asNode p
abbrev listAt (p : Option Addr) : Prog Object ListCell := Prog.load Object.asList p
abbrev pointersAt (p : Option Addr) : Prog Object (Slots (Option Addr)) := Prog.load Object.asPointers p
abbrev tableAt (p : Option Addr) : Prog Object TableCell := Prog.load Object.asTable p
abbrev messageAt (p : Option Addr) : Prog Object MessageCell := Prog.load Object.asMessage p

/-! ## Blocks of bytes -/

/-- `malloc(size)`. -/
def mallocBytes (junk : Addr → Nat → UInt8) (size : Int) : Prog Object (Option Addr) := do
  let a ← Prog.allocations
  match malloc (junk a) size with
  | none => return none
  | some b => Prog.new (.bytes b)

/-- `realloc(p, size)`. -/
def reallocBytes (junk : Addr → Nat → UInt8) (p : Option Addr) (size : Int) : Prog Object (Option Addr) := do
  let b ← bytesAt p
  let a ← Prog.allocations
  match realloc (junk a) b size with
  | none => return none
  | some b =>
    Prog.free p
    Prog.new (.bytes b)

/-- Write the bytes `src` at `p + i`. -/
def storeAt (p : Option Addr) (i : Nat) (src : List UInt8) : Prog Object Unit := do
  let b ← bytesAt p
  let b ← store b i src
  Prog.store p (.bytes b)

/-- `strdup(s)`. -/
def strdupAt (s : Option Addr) : Prog Object (Option Addr) := do
  let b ← bytesAt s
  let copy ← strdup b
  Prog.new (.bytes copy)

/-- `memcpy(dst + i, src + j, n)`. -/
def memcpy (dst : Option Addr) (i : Nat) (src : Option Addr) (j n : Int) : Prog Object Unit := do
  let b ← bytesAt src
  let chunk ← slice b j n
  storeAt dst i chunk

/-! ## `data.c` -/

/-- `data_create`. -/
def dataCreate (junk : Addr → Nat → UInt8) (size : Int) : Prog Object (Option Addr) :=
  if size < 1 then return none
  else do
    let temp ← Prog.new (.data ⟨size, none⟩)
    let data ← mallocBytes junk size
    Prog.store temp (.data ⟨size, data⟩)
    return temp

/-- `data_create2`. -/
def dataCreate2 (size : Int) (data : Option Addr) : Prog Object (Option Addr) :=
  if size < 1 ∨ data = none then return none
  else Prog.new (.data ⟨size, data⟩)

/-- `data_destroy`; the test before its first `free` is that of `free`. -/
def dataDestroy (data : Option Addr) : Prog Object Unit :=
  if data = none then return ()
  else do
    let d ← dataAt data
    Prog.free d.data
    Prog.free data

/-- `data_dup`. -/
def dataDup (junk : Addr → Nat → UInt8) (data : Option Addr) : Prog Object (Option Addr) :=
  if data = none then return none
  else do
    let d ← dataAt data
    if d.data = none then return none
    else
      let temp ← dataCreate junk d.datasize
      if temp = none then return none
      else
        let t ← dataAt temp
        memcpy t.data 0 d.data 0 d.datasize
        return temp

/-! ## `entry.c` -/

/-- `entry_create`. -/
def entryCreate (key data : Option Addr) : Prog Object (Option Addr) := Prog.new (.entry ⟨key, data⟩)

/-- `entry_destroy`. -/
def entryDestroy (entry : Option Addr) : Prog Object Unit :=
  if entry = none then return ()
  else do
    let e ← entryAt entry
    Prog.free e.key
    dataDestroy e.value
    Prog.free entry

/-! ## `list.c` -/

/-- The loop of `list_get_node`. -/
def listGetNodeLoop (key : Option Addr) : Nat → Option Addr → Prog Object (Option Addr)
  | _, none => return none
  | 0, some _ => throw .diverges
  | fuel + 1, some iter => do
    let node ← nodeAt (some iter)
    let e ← entryAt node.entry
    let k ← bytesAt e.key
    let key' ← bytesAt key
    let c ← strcmp k key'
    if c = 0 then return some iter
    else listGetNodeLoop key fuel node.next

/-- `list_get_node`. -/
def listGetNode (list key : Option Addr) : Prog Object (Option Addr) := do
  let l ← listAt list
  let fuel ← Prog.allocations
  listGetNodeLoop key fuel l.head

/-- `list_get`. -/
def listGet (list key : Option Addr) : Prog Object (Option Addr) := do
  let temp ← listGetNode list key
  if temp = none then return none
  else
    let node ← nodeAt temp
    return node.entry

/-- `list_create`. -/
def listCreate : Prog Object (Option Addr) := Prog.new (.list ⟨none, none⟩)

/-- The loop of `list_destroy`. -/
def listDestroyLoop : Nat → Option Addr → Prog Object Unit
  | _, none => return ()
  | 0, some _ => throw .diverges
  | fuel + 1, some iter => do
    let node ← nodeAt (some iter)
    entryDestroy node.entry
    Prog.free (some iter)
    listDestroyLoop fuel node.next

/-- `list_destroy`. -/
def listDestroy (list : Option Addr) : Prog Object Unit := do
  let l ← listAt list
  let fuel ← Prog.allocations
  listDestroyLoop fuel l.head
  Prog.free list

/-- A pointer that has been written. -/
def written {α : Type} : Option α → Exec α
  | none => .error .uninitialised
  | some a => .ok a

/-- `list_add`. -/
def listAdd (list entry : Option Addr) : Prog Object Int :=
  if list = none ∨ entry = none then return -1
  else do
    let e ← entryAt entry
    let found ← listGetNode list e.key
    if found = none then
      let new ← Prog.new (.node ⟨entry, none⟩)
      let l ← listAt list
      if l.head = none then
        Prog.store list (.list ⟨new, some new⟩)
        return 0
      else
        let tail ← written l.tail
        let last ← nodeAt tail
        Prog.store tail (.node { last with next := new })
        Prog.store list (.list { l with tail := some new })
        return 0
    else
      let node ← nodeAt found
      entryDestroy node.entry
      Prog.store found (.node { node with entry := entry })
      return 0

/-- The loop of `list_remove`. -/
def listRemoveLoop (list key : Option Addr) : Nat → Option Addr → Option Addr → Prog Object Int
  | _, _, none => return -1
  | 0, _, some _ => throw .diverges
  | fuel + 1, prev, some iter => do
    let node ← nodeAt (some iter)
    let e ← entryAt node.entry
    let key' ← bytesAt key
    let k ← bytesAt e.key
    let c ← strcmp key' k
    if c = 0 then
      if prev = none then
        let l ← listAt list
        Prog.store list (.list { l with head := node.next })
        entryDestroy node.entry
        Prog.free (some iter)
        return 0
      else
        let before ← nodeAt prev
        Prog.store prev (.node { before with next := node.next })
        entryDestroy node.entry
        Prog.free (some iter)
        return 0
    else listRemoveLoop list key fuel (some iter) node.next

/-- `list_remove`. -/
def listRemove (list key : Option Addr) : Prog Object Int := do
  let l ← listAt list
  let fuel ← Prog.allocations
  listRemoveLoop list key fuel none l.head

/-- The loop of `list_size`. -/
def listSizeLoop : Nat → Int → Option Addr → Prog Object Int
  | _, counter, none => return counter
  | 0, _, some _ => throw .diverges
  | fuel + 1, counter, some iter => do
    let counter ← intAdd counter 1
    let node ← nodeAt (some iter)
    listSizeLoop fuel counter node.next

/-- `list_size`. -/
def listSize (list : Option Addr) : Prog Object Int :=
  if list = none then return -1
  else do
    let l ← listAt list
    let fuel ← Prog.allocations
    listSizeLoop fuel 0 l.head

/-! ## `table.c` -/

/-- `s[i]`. -/
def slotAt (s : Slots (Option Addr)) (i : Int) : Exec (Option Addr) :=
  if i < 0 then .error .outOfBounds
  else match s[i.toNat]? with
    | none => .error .outOfBounds
    | some none => .error .uninitialised
    | some (some p) => .ok p

/-- The loop of `table_create`: `todo` lists from index `i` on. -/
def tableCreateLoop (listsPtr : Option Addr) : Nat → Nat → Prog Object Unit
  | 0, _ => return ()
  | todo + 1, i => do
    let list ← listCreate
    let s ← pointersAt listsPtr
    let s ← setSlot s i list
    Prog.store listsPtr (.pointers s)
    tableCreateLoop listsPtr todo (i + 1)

/-- `table_create`. -/
def tableCreate (n : Int) : Prog Object (Option Addr) := do
  let temp ← Prog.new (.table ⟨n, none⟩)
  let listsPtr ← Prog.new (.pointers (mallocSlots n))
  Prog.store temp (.table ⟨n, listsPtr⟩)
  tableCreateLoop listsPtr n.toNat 0
  return temp

/-- The loop of `table_destroy`. -/
def tableDestroyLoop (listsPtr : Option Addr) : Nat → Nat → Prog Object Unit
  | 0, _ => return ()
  | todo + 1, i => do
    let s ← pointersAt listsPtr
    let list ← slotAt s i
    listDestroy list
    tableDestroyLoop listsPtr todo (i + 1)

/-- `table_destroy`. -/
def tableDestroy (table : Option Addr) : Prog Object Unit := do
  let t ← tableAt table
  tableDestroyLoop t.listsPtr t.n.toNat 0
  Prog.free t.listsPtr
  Prog.free table

/-- `table->lists_ptr[get_hash_index(key, table->n)]`. -/
def listFor (table key : Option Addr) : Prog Object (Option Addr) := do
  let t ← tableAt table
  let k ← bytesAt key
  let index ← getHashIndex k t.n
  let s ← pointersAt t.listsPtr
  slotAt s index

/-- `table_put`. -/
def tablePut (junk : Addr → Nat → UInt8) (table key value : Option Addr) : Prog Object Int :=
  if table = none then return -1
  else do
    let list ← listFor table key
    let entry ← listGet list key
    if entry = none then
      let copy ← strdupAt key
      let dup ← dataDup junk value
      let temp ← entryCreate copy dup
      let _ ← listAdd list temp
      return 0
    else
      let e ← entryAt entry
      dataDestroy e.value
      let dup ← dataDup junk value
      Prog.store entry (.entry { e with value := dup })
      return 0

/-- `table_get`. -/
def tableGet (junk : Addr → Nat → UInt8) (table key : Option Addr) : Prog Object (Option Addr) := do
  let list ← listFor table key
  let entry ← listGet list key
  if entry = none then return none
  else
    let e ← entryAt entry
    dataDup junk e.value

/-- `table_del`. -/
def tableDel (table key : Option Addr) : Prog Object Int := do
  let list ← listFor table key
  listRemove list key

/-- The loop of `table_size`. -/
def tableSizeLoop (listsPtr : Option Addr) : Nat → Nat → Int → Prog Object Int
  | 0, _, counter => return counter
  | todo + 1, i, counter => do
    let s ← pointersAt listsPtr
    let list ← slotAt s i
    let size ← listSize list
    let counter ← intAdd counter size
    tableSizeLoop listsPtr todo (i + 1) counter

/-- `table_size`. -/
def tableSize (table : Option Addr) : Prog Object Int := do
  let t ← tableAt table
  tableSizeLoop t.listsPtr t.n.toNat 0 0

/-- The inner loop of `table_get_keys`. -/
def copyKeysLoop (buffer : Option Addr) : Nat → Nat → Option Addr → Prog Object Nat
  | _, index, none => return index
  | 0, _, some _ => throw .diverges
  | fuel + 1, index, some iter => do
    let node ← nodeAt (some iter)
    let e ← entryAt node.entry
    let copy ← strdupAt e.key
    let s ← pointersAt buffer
    let s ← setSlot s index copy
    Prog.store buffer (.pointers s)
    copyKeysLoop buffer fuel (index + 1) node.next

/-- The outer loop of `table_get_keys`. -/
def tableGetKeysLoop (listsPtr buffer : Option Addr) : Nat → Nat → Nat → Prog Object Nat
  | 0, _, index => return index
  | todo + 1, i, index => do
    let s ← pointersAt listsPtr
    let list ← slotAt s i
    let l ← listAt list
    let fuel ← Prog.allocations
    let index ← copyKeysLoop buffer fuel index l.head
    tableGetKeysLoop listsPtr buffer todo (i + 1) index

/-- `table_get_keys`. -/
def tableGetKeys (table : Option Addr) : Prog Object (Option Addr) := do
  let size ← tableSize table
  let slots ← intAdd size 1
  let buffer ← Prog.new (.pointers (mallocSlots slots))
  let t ← tableAt table
  let index ← tableGetKeysLoop t.listsPtr buffer t.n.toNat 0 0
  let s ← pointersAt buffer
  let s ← setSlot s index none
  Prog.store buffer (.pointers s)
  return buffer

/-- The loop of `table_free_keys` on what is left of the array. -/
def freeKeysLoop : Slots (Option Addr) → Prog Object Unit
  | [] => throw .outOfBounds
  | none :: _ => throw .uninitialised
  | some none :: _ => return ()
  | some (some key) :: s => do
    Prog.free (some key)
    freeKeysLoop s

/-- `table_free_keys`; `list_free_keys` is the same. -/
def tableFreeKeys (keys : Option Addr) : Prog Object Unit := do
  let s ← pointersAt keys
  freeKeysLoop s
  Prog.free keys

end RemoteTable.Pointers
