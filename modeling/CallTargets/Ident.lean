import Std.Data.ExtTreeMap

/-!
# Identifiers

Values, blocks and functions of a program are numbered densely from zero, each
kind with a counter of its own.  An identifier is a 32-bit word tagged by the
kind of thing that it names, so the three kinds can never be confused, while
their order and their text are given once.
-/

namespace CallTargets

/-- The kinds of numbered things in a program. -/
inductive Entity where
  | value
  | block
  | func
deriving DecidableEq, Repr

/-- The text written before the number of an identifier. -/
def Entity.mark : Entity → String
  | .value => "%"
  | .block => "bb"
  | .func => "fn"

/-- The number of a value, block or function. -/
structure Ident (e : Entity) where
  num : UInt32
deriving DecidableEq, Repr

abbrev ValueId := Ident .value

abbrev BlockId := Ident .block

abbrev FuncId := Ident .func

namespace Ident

variable {e : Entity}

/-- The identifier with number `n`; only the low 32 bits of `n` are kept. -/
def ofNat (n : Nat) : Ident e := ⟨UInt32.ofNat n⟩

/-- The position that an identifier names. -/
def index (i : Ident e) : Nat := i.num.toNat

/-- For instance `%3`, `bb1` or `fn0`. -/
def text (i : Ident e) : String := e.mark ++ toString i.index

@[simp] theorem index_ofNat (n : Nat) : (ofNat n : Ident e).index = n % UInt32.size := rfl

theorem index_lt (i : Ident e) : i.index < UInt32.size := i.num.toNat_lt

theorem ext_index {i j : Ident e} (h : i.index = j.index) : i = j := by
  cases i
  cases j
  exact congrArg Ident.mk (UInt32.toNat_inj.mp h)

theorem index_ofNat_of_lt {n : Nat} (h : n < UInt32.size) : (ofNat n : Ident e).index = n :=
  Nat.mod_eq_of_lt h

theorem ofNat_index (i : Ident e) : ofNat i.index = i :=
  ext_index (index_ofNat_of_lt i.index_lt)

/-! ## Order by number -/

instance : Ord (Ident e) := ⟨compareOn Ident.num⟩

theorem compare_def (i j : Ident e) : compare i j = compare i.num j.num := rfl

instance : Std.TransOrd (Ident e) :=
  inferInstanceAs (Std.TransCmp (compareOn Ident.num))

instance : Std.LawfulEqOrd (Ident e) where
  eq_of_compare {i j} h := by
    cases i
    cases j
    exact congrArg Ident.mk (Std.LawfulEqOrd.eq_of_compare h)

end Ident

end CallTargets
