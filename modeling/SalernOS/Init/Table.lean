import SalernOS.Libc.Text

/-! # `init/src/table.c`

A table entry holds a value together with its type tag, so the union and the
tag of the source are one sum type. Only integers, strings and functions are
stored; the other tags have no value of their own.
-/
namespace SalernOS.Init.Table
open SalernOS.Libc

inductive Ty where
  | int
  | string
  | function
  | any
  | undef
  | entry
deriving DecidableEq, Repr

/-- `type` and `value` of `struct table_entry`; `φ` is what a function pointer
points to. -/
inductive Value (φ : Type) where
  | int (n : BitVec 64)
  | string (s : CString)
  | function (f : φ)
  | any
  | undef
  | entry

def Value.type {φ : Type} : Value φ → Ty
  | .int _ => .int
  | .string _ => .string
  | .function _ => .function
  | .any => .any
  | .undef => .undef
  | .entry => .entry

structure TableEntry (φ : Type) where
  name : CString
  value : Value φ

def TableEntry.type {φ : Type} (e : TableEntry φ) : Ty := e.value.type

/-- `table_lookup`: the entry stored to `*out`, or `none` for
`LOOKUP_NOT_FOUND`, with `*out` untouched. -/
def tableLookup {φ : Type} (name : Bytes) (namelen : Nat) (type : Ty) :
    List (TableEntry φ) → Option (TableEntry φ)
  | [] => none
  | entry :: entries =>
    if strncmp namelen name entry.name.bytes = 0 then
      if type = entry.type ∨ type = .any then some entry
      else tableLookup name namelen type entries
    else tableLookup name namelen type entries

theorem tableLookup_take {φ : Type} (name : Bytes) (namelen : Nat) (type : Ty) :
    ∀ table : List (TableEntry φ),
      tableLookup (name.take namelen) namelen type table = tableLookup name namelen type table
  | [] => rfl
  | entry :: entries => by
    unfold tableLookup
    rw [strncmp_take, tableLookup_take name namelen type entries]

/-- What is found stands in the table and has the type that was asked for. -/
theorem tableLookup_some {φ : Type} {name : Bytes} {namelen : Nat} {type : Ty} :
    ∀ {table : List (TableEntry φ)} {e : TableEntry φ},
      tableLookup name namelen type table = some e →
      e ∈ table ∧ (type = e.type ∨ type = .any)
  | entry :: entries, e, h => by
    have tail : tableLookup name namelen type entries = some e →
        e ∈ entry :: entries ∧ (type = e.type ∨ type = .any) := fun h =>
      ⟨List.mem_cons_of_mem _ (tableLookup_some h).1, (tableLookup_some h).2⟩
    unfold tableLookup at h
    split at h
    · split at h
      · rename_i ht
        cases h
        exact ⟨List.mem_cons_self, ht⟩
      · exact tail h
    · exact tail h

end SalernOS.Init.Table
