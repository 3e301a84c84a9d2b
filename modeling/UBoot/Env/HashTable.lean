import UBoot.Lib.OpenAddressing

/-!
# The environment hash table

`lib/hashtable.c`: creation, search, insertion and deletion. A slot's `used` field is `0` when
it was never filled, `-1` when its entry was deleted, and the first hash value of its key
otherwise. An entry holds its strings. `malloc` succeeds; a `NULL` argument still makes
`strdup` fail. Callbacks and `change_ok` accept or reject a change.
-/

namespace UBoot.Env

def CString := { s : List UInt8 // 0 ∉ s }

instance : DecidableEq CString := inferInstanceAs (DecidableEq { s : List UInt8 // 0 ∉ s })

def CString.lit (s : String) : CString :=
  ⟨(s.toList.map Char.toUInt8).filter (· ≠ 0), by simp⟩

inductive EnvOp
  | create | delete | overwrite
  deriving DecidableEq

inductive Action
  | find | enter
  deriving DecidableEq

inductive Errno
  | EPERM | ESRCH | ENOMEM | EINVAL
  deriving DecidableEq

abbrev Callback := CString → Option CString → EnvOp → Nat → Bool

/-- `ENTRY`. A pointer that is `NULL` or was freed is `none`. -/
structure Entry where
  key : Option CString
  data : Option CString
  callback : Option Callback
  flags : Nat

structure Slot where
  used : Int
  entry : Entry

/-- `struct hsearch_data` with a table; a `NULL` table is `none : Option Htab`. -/
structure Htab where
  size : Nat
  filled : Nat
  table : Nat → Slot

/-- What the code calls back: the table's `change_ok`, and the initialisation
of a new entry's callback and flags from the attribute lists. -/
structure Hooks where
  changeOk : Option (Entry → Option CString → EnvOp → Nat → Bool)
  callbackInit : Htab → CString → Option Callback
  flagsInit : Htab → CString → Option Nat

/-! ## hcreate_r -/

def isprimeLoop (number : Nat) : Nat → Nat → Bool
  | 0, div => number % div != 0
  | fuel + 1, div =>
    if div * div < number ∧ number % div ≠ 0 then isprimeLoop number fuel (div + 2)
    else number % div != 0

def isprime (number : Nat) : Bool := isprimeLoop number number 3

def nextPrime : Nat → Nat → Option Nat
  | 0, _ => none
  | fuel + 1, nel => if isprime nel then some nel else nextPrime fuel (nel + 2)

def emptySlot : Slot := ⟨0, none, none, none, 0⟩

def sizeofEntry : Nat := 20

/-- `calloc` cannot return more than the address space. -/
def hcreateR (nel : Nat) : Option Htab → Option Htab
  | some _ => none
  | none => do
    let nel := nel ||| 1
    let size ← nextPrime (nel + 1) nel
    if (size + 1) * sizeofEntry < 2 ^ 32 then
      some { size := size, filled := 0, table := fun _ => emptySlot }
    else none

/-! ## hsearch_r -/

/-- A `char` added to an `unsigned int`: `char` is signed. -/
def charValue (c : UInt8) : UInt32 := if c < 128 then c.toUInt32 else c.toUInt32 - 256

def hashValue (key : CString) : UInt32 :=
  key.val.foldr (fun c hval => (hval <<< 4) + charValue c) key.val.length.toUInt32

def firstHash (size : Nat) (key : CString) : Nat :=
  let hval := (hashValue key).toNat % size
  if hval = 0 then hval + 1 else hval

def secondHash (size hval : Nat) : Nat := 1 + hval % (size - 2)

/-- The result of a search: the return value, `*retval` as the number of the
slot it points into, `errno` where it was set, and the table. -/
structure Found where
  ret : Nat
  retval : Option Nat
  errno : Option Errno
  htab : Htab

def Htab.setSlot (htab : Htab) (idx : Nat) (slot : Slot) : Htab :=
  { htab with table := Function.update htab.table idx slot }

@[simp] theorem Htab.setSlot_size (htab : Htab) : (htab.setSlot idx slot).size = htab.size := rfl

@[simp] theorem Htab.setSlot_filled (htab : Htab) :
    (htab.setSlot idx slot).filled = htab.filled := rfl

def Hooks.forbids (hooks : Hooks) (e : Entry) (newval : Option CString) (op : EnvOp)
    (flag : Nat) : Bool :=
  match hooks.changeOk with
  | some changeOk => changeOk e newval op flag
  | none => false

def Entry.rejects (e : Entry) (name : CString) (value : Option CString) (op : EnvOp)
    (flag : Nat) : Bool :=
  match e.callback with
  | some callback => callback name value op flag
  | none => false

section
variable (hooks : Hooks) (key : CString) (data : Option CString) (action : Action) (flag : Nat)

def compareAndOverwriteEntry (htab : Htab) (hval idx : Nat) : Option Found :=
  let slot := htab.table idx
  if slot.used = hval ∧ slot.entry.key = some key then
    if action = .enter ∧ data ≠ none then
      if hooks.forbids slot.entry data .overwrite flag then
        some ⟨0, none, some .EPERM, htab⟩
      else if slot.entry.rejects key data .overwrite flag then
        some ⟨0, none, some .EINVAL, htab⟩
      else
        some ⟨idx, some idx, none,
          htab.setSlot idx { slot with entry := { slot.entry with data := data } }⟩
    else some ⟨idx, some idx, none, htab⟩
  else none

/-- The `do` loop: `error` returns from the search, `ok` leaves the loop at
an index. -/
def probeLoop (htab : Htab) (hval hval2 : Nat) : Nat → Nat → Except Found Nat
  | 0, idx => .ok idx
  | fuel + 1, idx =>
    let idx := OpenAddressing.back htab.size hval2 idx
    -- If we visited all entries leave the loop unsuccessfully.
    if idx = hval then .ok idx
    else
      match compareAndOverwriteEntry hooks key data action flag htab hval idx with
      | some found => .error found
      | none =>
        if (htab.table idx).used ≠ 0 then probeLoop htab hval hval2 fuel idx else .ok idx

def deleteSlot (htab : Htab) (idx : Nat) : Htab :=
  { htab.setSlot idx ⟨-1, none, none, none, 0⟩ with filled := htab.filled - 1 }

/-- `env_callback_init` and `env_flags_init` on a new entry. -/
def Entry.init (e : Entry) (htab : Htab) : Entry :=
  { e with callback := (hooks.callbackInit htab key).or e.callback,
           flags := (hooks.flagsInit htab key).getD e.flags }

/-- An empty bucket has been found: create the entry in slot `idx`. -/
def createEntry (htab : Htab) (hval idx : Nat) : Found :=
  if htab.filled = htab.size then ⟨0, none, some .ENOMEM, htab⟩
  else
    let e := { (htab.table idx).entry with key := some key, data := data }
    let htab := htab.setSlot idx ⟨hval, e⟩
    if data = none then ⟨0, none, some .ENOMEM, htab⟩
    else
      let htab := { htab with filled := htab.filled + 1 }
      let e := e.init hooks key htab
      let htab := htab.setSlot idx ⟨hval, e⟩
      if hooks.forbids e data .create flag then
        ⟨0, none, some .EPERM, deleteSlot htab idx⟩
      else if e.rejects key data .create flag then
        ⟨0, none, some .EINVAL, deleteSlot htab idx⟩
      else ⟨1, some idx, none, htab⟩

def finishSearch (htab : Htab) (hval firstDeleted idx : Nat) : Found :=
  match action with
  | .enter =>
    createEntry hooks key data flag htab hval (if firstDeleted ≠ 0 then firstDeleted else idx)
  | .find => ⟨0, none, some .ESRCH, htab⟩

def hsearchR (htab : Htab) : Found :=
  let hval := firstHash htab.size key
  let slot := htab.table hval
  if slot.used ≠ 0 then
    let firstDeleted := if slot.used = -1 then hval else 0
    match compareAndOverwriteEntry hooks key data action flag htab hval hval with
    | some found => found
    | none =>
      match probeLoop hooks key data action flag htab hval (secondHash htab.size hval)
          htab.size hval with
      | .error found => found
      | .ok idx => finishSearch hooks key data action flag htab hval firstDeleted idx
  else finishSearch hooks key data action flag htab hval 0 hval

end

/-- The return value, `errno` where it was set, and the table. -/
def hdeleteR (hooks : Hooks) (key : CString) (flag : Nat) (htab : Htab) :
    Nat × Option Errno × Htab :=
  match (hsearchR hooks key none .find 0 htab).retval with
  | none => (0, some .ESRCH, htab)
  | some idx =>
    let e := (htab.table idx).entry
    if hooks.forbids e none .delete flag then (0, some .EPERM, htab)
    else if e.rejects key none .delete flag then (0, some .EINVAL, htab)
    else (1, none, deleteSlot htab idx)

end UBoot.Env
