namespace DeadLanes

-- Names are plain numbers; a type of its own for each kind keeps them apart.

structure Value where
  id : Nat
  deriving DecidableEq

-- A basic block, by its position in the function. Block 0 is the entry.
structure Label where
  index : Nat
  deriving DecidableEq

structure TypeRef where
  index : Nat
  deriving DecidableEq

-- A placed instruction. Serials are handed out once and never again, so a
-- reference to an erased instruction resolves to nothing for good.
structure InstRef where
  serial : Nat
  deriving DecidableEq

def Value.text (v : Value) : String := "%" ++ v.id.repr
def Label.text (b : Label) : String := "bb" ++ b.index.repr
def TypeRef.text (t : TypeRef) : String := "ty" ++ t.index.repr

def InstRef.text (r : InstRef) : String := "InstId(" ++ r.serial.repr ++ ", 0)"

-- Identifiers and lane counts are 32-bit quantities. A sum of such that reaches
-- this bound is a fault.
def wordBound : Nat := 0x100000000

-- A place in a list, and the length of one, become such without a check.
def cut (n : Nat) : Nat := n % wordBound

theorem cut_of_lt {n : Nat} (fits : n < wordBound) : cut n = n := Nat.mod_eq_of_lt fits

theorem cut_eq_self {n : Nat} : cut n = n ↔ n < wordBound := ⟨fun same => same ▸ Nat.mod_lt n (by decide), cut_of_lt⟩

theorem cut_le (n : Nat) : cut n ≤ n := Nat.mod_le n wordBound

def Label.nth (place : Nat) : Label := ⟨cut place⟩
def TypeRef.nth (place : Nat) : TypeRef := ⟨cut place⟩

end DeadLanes
