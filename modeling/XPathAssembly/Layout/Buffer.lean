import XPathAssembly.Store.Basic

/-!
# Bounded buffers

A buffer holds what has been written and never more than the capacity it was made with.  A write
that does not fit changes nothing.

    write data b = .ok () b' → b'.bytes.toList = b.bytes.toList ++ data      (toList_write)
-/

namespace XPathAssembly

structure Buffer where
  capacity : Nat
  bytes : Array UInt8 := #[]
deriving DecidableEq, Repr

namespace Buffer

/-- An empty buffer. -/
def ofCapacity (capacity : Int) : Except Fault Buffer :=
  if 0 ≤ capacity then .ok { capacity := capacity.toNat } else .error .capacity

def size (b : Buffer) : Nat := b.bytes.size

/-- What has been written. -/
def toList (b : Buffer) : Bytes := b.bytes.toList

/-- The byte at a position, if it has been written. -/
def byteAt? (b : Buffer) (i : Int) : Option UInt8 := if 0 ≤ i then b.bytes[i.toNat]? else none

def write (data : Bytes) : Call Buffer Unit := fun b =>
  if b.size + data.length ≤ b.capacity then .ok () { b with bytes := b.bytes ++ data }
  else .error .full b

/-- Takes the last byte back. -/
def dropLast : Call Buffer Unit := fun b =>
  if b.size = 0 then .error .empty b else .ok () { b with bytes := b.bytes.pop }

/-- Writes one after the other, up to the first that does not fit. -/
def writeAll : List Bytes → Call Buffer Unit
  | [] => return
  | data :: rest => do
    write data
    writeAll rest

/-! ## Lemmas -/

theorem toList_write {data : Bytes} {b b' : Buffer} (h : write data b = .ok () b') :
    b'.toList = b.toList ++ data := by
  unfold write at h
  split at h
  · cases h; simp [toList]
  · cases h

theorem toList_dropLast {b b' : Buffer} (h : dropLast b = .ok () b') :
    b'.toList = b.toList.dropLast := by
  unfold dropLast at h
  split at h
  · cases h
  · cases h; simp [toList]

end Buffer

end XPathAssembly
