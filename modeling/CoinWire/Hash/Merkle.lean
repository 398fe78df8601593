import CoinWire.Hash

/-!
# Merkle roots

A level of hashes is halved by hashing neighbours together; a hash without a neighbour is
paired with itself. The root is the hash that is left.
-/

namespace CoinWire.Hash

/-- The parent of two hashes. -/
def join (left right : Hash) : Hash :=
  double (left.toBytes ++ right.toBytes)

/-- The level above. -/
def parents : List Hash → List Hash
  | left :: right :: rest => join left right :: parents rest
  | [last] => [join last last]
  | [] => []

theorem length_parents (level : List Hash) : (parents level).length = (level.length + 1) / 2 := by
  fun_induction parents level with
  | case1 left right rest ih =>
    simp only [List.length_cons, ih]
    omega
  | case2 => simp
  | case3 => simp

/-- The root of a list of hashes, zero for the empty list. -/
def merkleRoot : List Hash → Hash
  | [] => zero
  | [root] => root
  | left :: right :: rest =>
    have : (parents rest).length < rest.length + 1 := by
      rw [length_parents]
      omega
    merkleRoot (join left right :: parents rest)
termination_by level => level.length

end CoinWire.Hash
