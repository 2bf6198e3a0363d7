/-! util/random.h: the Lehmer generator behind the node heights. The state is
the 32-bit seed; every call returns the seed it leaves behind. -/
namespace KVStorage

structure Random where
  seed_ : UInt32
  deriving DecidableEq, Repr

namespace Random

def new (s : UInt32) : Random :=
  let seed_ := s &&& 0x7fffffff
  if seed_ = 0 ∨ seed_ = 2147483647 then ⟨1⟩ else ⟨seed_⟩

def next (r : Random) : UInt32 × Random :=
  let M : UInt32 := 2147483647
  let product : UInt64 := r.seed_.toUInt64 * 16807
  let seed_ := ((product >>> 31) + (product &&& M.toUInt64)).toUInt32
  let seed_ := if seed_ > M then seed_ - M else seed_
  (seed_,⟨seed_⟩)

/- An int is converted to unsigned for the remainder. -/
def uniform (r : Random) (n : Int32) : UInt32 × Random :=
  let (value,r) := r.next
  (value % n.toUInt32,r)

def oneIn (r : Random) (n : UInt32) : Bool × Random :=
  let (value,r) := r.next
  (value % n == 0,r)

def skewed (r : Random) (max_log : Int32) : UInt32 × Random :=
  let (base,r) := r.uniform (max_log+1)
  r.uniform (1 <<< base.toInt32)

end Random
end KVStorage
