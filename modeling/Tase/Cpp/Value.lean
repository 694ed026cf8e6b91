import Mathlib.Data.BitVec
import Mathlib.Logic.Function.Basic

/-! The integer part of C++ that generated interpreter code uses: fixed-width
integer types, promotion, the usual arithmetic conversions and the operators.
Operations whose result the standard leaves undefined take it from a parameter,
so a theorem that holds for every `Undef` does not rely on any choice. -/

namespace Cpp

structure Ty where
  width : Nat
  signed : Bool
deriving DecidableEq, Repr

namespace Ty

abbrev int : Ty := ⟨32, true⟩

abbrev uint (width : Nat) : Ty := ⟨width, false⟩

def promote (t : Ty) : Ty := if t.width < 32 then int else t

/-- The usual arithmetic conversions: the wider promoted type, unsigned on a tie
when either side is unsigned. -/
def common (left right : Ty) : Ty :=
  let l := left.promote
  let r := right.promote
  if l.width < r.width then r
  else if r.width < l.width then l
  else ⟨l.width, l.signed && r.signed⟩

end Ty

structure Val where
  ty : Ty
  bits : BitVec ty.width
deriving DecidableEq

inductive ArithOp
  | add | sub | mul | div | rem | and | or | xor
deriving DecidableEq, Repr

inductive ShiftOp
  | left | right
deriving DecidableEq, Repr

inductive CmpOp
  | eq | lt | gt | le | ge
deriving DecidableEq, Repr

inductive UnOp
  | neg | not | lnot
deriving DecidableEq, Repr

/-- The values that undefined operations happen to produce. -/
structure Undef where
  arith : ArithOp → Val → Val → Int
  shift : ShiftOp → Val → Val → Int
  entry : List Nat → Val → Int

instance : Inhabited Undef := ⟨fun _ _ _ => 0, fun _ _ _ => 0, fun _ _ => 0⟩

inductive Radix
  | dec | hex | hexUll
deriving DecidableEq, Repr

/-- The first type of the radix's list that holds the literal. A literal too
large for all of them is an `unsigned long long` after a warning. -/
def Radix.ty : Radix → Nat → Ty
  | .dec, n => if n < 2 ^ 31 then .int else if n < 2 ^ 63 then ⟨64, true⟩ else .uint 64
  | .hex, n =>
      if n < 2 ^ 31 then .int
      else if n < 2 ^ 32 then .uint 32
      else if n < 2 ^ 63 then ⟨64, true⟩
      else .uint 64
  | .hexUll, _ => .uint 64

namespace ArithOp

def undefined (op : ArithOp) (t : Ty) (x y : BitVec t.width) : Bool :=
  match op with
  | .add => t.signed && x.saddOverflow y
  | .sub => t.signed && x.ssubOverflow y
  | .mul => t.signed && x.smulOverflow y
  | .div | .rem => y == 0 || (t.signed && x == BitVec.intMin t.width && y == -1)
  | .and | .or | .xor => false

def compute (op : ArithOp) (t : Ty) (x y : BitVec t.width) : BitVec t.width :=
  match op with
  | .add => x + y
  | .sub => x - y
  | .mul => x * y
  | .div => if t.signed then x.sdiv y else x / y
  | .rem => if t.signed then x.srem y else x % y
  | .and => x &&& y
  | .or => x ||| y
  | .xor => x ^^^ y

end ArithOp

def CmpOp.holds (op : CmpOp) (t : Ty) (x y : BitVec t.width) : Bool :=
  match op with
  | .eq => x == y
  | .lt => if t.signed then x.slt y else x.ult y
  | .gt => if t.signed then y.slt x else y.ult x
  | .le => if t.signed then x.sle y else x.ule y
  | .ge => if t.signed then y.sle x else y.ule x

namespace Val

def toInt (v : Val) : Int := if v.ty.signed then v.bits.toInt else v.bits.toNat

def conv (v : Val) (t : Ty) : BitVec t.width :=
  if v.ty.signed then v.bits.signExtend t.width else v.bits.setWidth t.width

def cast (t : Ty) (v : Val) : Val := ⟨t, v.conv t⟩

def truthy (v : Val) : Bool := v.bits != 0

def ofBool (b : Bool) : Val := ⟨.int, if b then 1 else 0⟩

def lit (radix : Radix) (n : Nat) : Val := ⟨radix.ty n, BitVec.ofNat _ n⟩

def arithAt (ub : Undef) (op : ArithOp) (t : Ty) (l r : Val) : Val :=
  ⟨t, if op.undefined t (l.conv t) (r.conv t) then BitVec.ofInt _ (ub.arith op l r)
    else op.compute t (l.conv t) (r.conv t)⟩

def arith (ub : Undef) (op : ArithOp) (l r : Val) : Val :=
  arithAt ub op (Ty.common l.ty r.ty) l r

/-- Left shifts wrap, right shifts of signed values are arithmetic. Only an amount
outside the width of the promoted left operand is undefined. -/
def shiftAt (ub : Undef) (op : ShiftOp) (t : Ty) (l r : Val) : Val :=
  ⟨t, if 0 ≤ r.toInt ∧ r.toInt < t.width then
      match op with
      | .left => l.conv t <<< r.toInt.toNat
      | .right =>
          if t.signed then (l.conv t).sshiftRight r.toInt.toNat
          else l.conv t >>> r.toInt.toNat
    else BitVec.ofInt _ (ub.shift op l r)⟩

def shift (ub : Undef) (op : ShiftOp) (l r : Val) : Val :=
  shiftAt ub op l.ty.promote l r

def cmpAt (op : CmpOp) (t : Ty) (l r : Val) : Val :=
  ofBool (op.holds t (l.conv t) (r.conv t))

def cmp (op : CmpOp) (l r : Val) : Val := cmpAt op (Ty.common l.ty r.ty) l r

def lor (l r : Val) : Val := ofBool (l.truthy || r.truthy)

def cond (c l r : Val) : Val := cast (Ty.common l.ty r.ty) (if c.truthy then l else r)

def un (ub : Undef) (op : UnOp) (v : Val) : Val :=
  match op with
  | .neg => arithAt ub .sub v.ty.promote ⟨v.ty.promote, 0⟩ v
  | .not => ⟨v.ty.promote, ~~~(v.conv v.ty.promote)⟩
  | .lnot => ofBool (!v.truthy)

/-- An entry of a table of `int`s. Outside the table the access is undefined. -/
def lookup (ub : Undef) (table : List Nat) (index : Val) : Val :=
  ⟨.int, if 0 ≤ index.toInt ∧ index.toInt < table.length then BitVec.ofNat _ (table.getD index.toInt.toNat 0)
    else BitVec.ofInt _ (ub.entry table index)⟩

@[simp] theorem cast_ty (t : Ty) (v : Val) : (v.cast t).ty = t := rfl

@[simp] theorem conv_unsigned (width : Nat) (x : BitVec width) (t : Ty) :
    (⟨⟨width, false⟩, x⟩ : Val).conv t = x.setWidth t.width := rfl

@[simp] theorem conv_signed (width : Nat) (x : BitVec width) (t : Ty) :
    (⟨⟨width, true⟩, x⟩ : Val).conv t = x.signExtend t.width := rfl

@[simp] theorem cast_conv_self (t : Ty) (v : Val) : (v.cast t).conv t = v.conv t := by
  unfold cast conv
  split <;> simp_all

@[simp] theorem cast_cast_self (t : Ty) (v : Val) : (v.cast t).cast t = v.cast t := by
  rw [cast, cast_conv_self, ← cast]

end Val

end Cpp
