import Iraf.Osb.Swap

/-!
# Machine independent integers of 32 bits

The procedures `miipak32` and `miiupk32`.  The byte order of a host is given by
its `BYTE_SWAP` parameters, and its words by the size of `int` and `long`.
-/

namespace Iraf.Osb

open Iraf.ByteMemory

/-- The integer datatypes; `TY_POINTER` and `TY_STRUCT` are treated as `int`. -/
inductive SppType where
  | short
  | int
  | long
  deriving DecidableEq, Repr

/-- Sizes (`wide` for `iraf64.h`, otherwise `iraf32.h`) and byte order. -/
structure Host where
  wide : Bool
  swap2 : Bool
  swap4 : Bool
  swap8 : Bool
  deriving DecidableEq, Repr

def szbChar : Nat := 2

def nbitsByte : Nat := 8

/-- Size of a datatype in chars. -/
def sizeof (host : Host) : SppType → Nat
  | .short => 1
  | .int => if host.wide then 4 else 2
  | .long => if host.wide then 4 else 2

/-- Size of a datatype in bytes. -/
def SppType.bytes (host : Host) (ty : SppType) : Nat :=
  sizeof host ty * szbChar

/-! ## Integers of a host -/

/-- The bytes of an integer of `n` bytes lie in groups of this size, each in the
opposite order of a machine independent integer. -/
def Host.group (host : Host) (n : Nat) : Nat :=
  if n = 8 ∧ host.swap8 then 8
  else if 4 ≤ n ∧ host.swap4 then 4
  else if host.swap2 then 2
  else 1

/-- The bytes of the integer at `a`, the high order byte first. -/
def word (host : Host) (m : Memory) (a : Int) (n : Nat) : List Byte :=
  (List.range n).map fun j => m (a + reflect (host.group n) j)

def putWord (host : Host) (m : Memory) (a : Int) (bs : List Byte) : Memory :=
  splice m a bs.length fun j => bs.getD (reflect (host.group bs.length) j) 0

def unsigned (bs : List Byte) : Int := bs.foldl (fun v b => 256 * v + b.val) 0

def negative (bs : List Byte) : Bool := (bs.headD 0).val ≥ 128

/-- Twos complement. -/
def signed (bs : List Byte) : Int :=
  if negative bs then unsigned bs - 256 ^ bs.length else unsigned bs

/-- Assignment to an integer of `n` bytes. -/
def convert (n : Nat) (bs : List Byte) : List Byte :=
  if bs.length ≤ n then
    List.replicate (n - bs.length) (if negative bs then 255 else 0) ++ bs
  else bs.drop (bs.length - n)

/-- Element `i` of an array, counted from 0. -/
def element (host : Host) (ty : SppType) (m : Memory) (a : Int) (i : Nat) : Int :=
  signed (word host m (a + ty.bytes host * i) (ty.bytes host))

/-! ## Converting arrays -/

/-- `b[i] = a[i]` for elements of `p` and `q` bytes. -/
def assign (host : Host) (p q : Nat) (m : Memory) (a b : Int) (i : Nat) :
    Memory :=
  putWord host m (b + q * i) (convert q (word host m (a + p * i) p))

/-- `do i = 1, n` -/
def assignUp (host : Host) (p q : Nat) (m : Memory) (a b : Int) (n : Nat) :
    Memory :=
  (List.range n).foldl (fun m i => assign host p q m a b i) m

/-- `do i = n, 1, -1` -/
def assignDown (host : Host) (p q : Nat) (m : Memory) (a b : Int) :
    Nat → Memory
  | 0 => m
  | n + 1 => assignDown host p q (assign host p q m a b n) a b n

/-- `acht` from elements of `p` bytes to elements of `q` bytes. -/
def acht (host : Host) (p q : Nat) (m : Memory) (a b : Int) (n : Nat) :
    Memory :=
  if q ≤ p then assignUp host p q m a b n else assignDown host p q m a b n

/-- `amov` for elements of `p` bytes. -/
def amov (host : Host) (p : Nat) (m : Memory) (a b : Int) (n : Nat) : Memory :=
  if a = b then m
  else if a < b then assignDown host p p m a b n
  else assignUp host p p m a b n

/-- `achtsl`, `achtil` or `achtll`. -/
def toLong (host : Host) : SppType → Memory → Int → Int → Nat → Memory
  | .short => acht host (SppType.short.bytes host) (SppType.long.bytes host)
  | .int => acht host (SppType.int.bytes host) (SppType.long.bytes host)
  | .long => amov host (SppType.long.bytes host)

/-- `achtl`: `achtls`, `achtli` or `achtll`. -/
def achtl (host : Host) (m : Memory) (a b : Int) (n : Nat) : SppType → Memory
  | .short => acht host (SppType.long.bytes host) (SppType.short.bytes host) m a b n
  | .int => acht host (SppType.long.bytes host) (SppType.int.bytes host) m a b n
  | .long => amov host (SppType.long.bytes host) m a b n

/-! ## Packing -/

/-- The scratch array is allocated at `tmpp`. -/
def miipak32 (host : Host) (m : Memory) (spp mii : Int) (nelems : Nat)
    (ty : SppType) (tmpp : Int) : Memory :=
  let miiBytes := 32 / nbitsByte
  let sppBytes := sizeof host ty * szbChar
  let m := toLong host ty m spp tmpp nelems
  if miiBytes = sppBytes then
    if host.swap4 then bswap4 m tmpp 1 mii 1 (nelems * miiBytes : Nat)
    else if host.swap2 then bswap2 m tmpp 1 mii 1 (nelems * miiBytes : Nat)
    else m
  else if 2 * miiBytes = sppBytes then
    let m :=
      if host.swap8 then bswap8 m tmpp 1 tmpp 1 (nelems * sppBytes : Nat)
      else if host.swap4 then bswap4 m tmpp 1 tmpp 1 (nelems * sppBytes : Nat)
      else if host.swap2 then bswap2 m tmpp 1 tmpp 1 (nelems * sppBytes : Nat)
      else m
    i64to32 m tmpp mii nelems
  else
    -- "[ERROR] miipak32.x: unexpected integer size"
    m

def miiupk32 (host : Host) (m : Memory) (mii spp : Int) (nelems : Nat)
    (ty : SppType) : Memory :=
  let miiBytes := 32 / nbitsByte
  let sppBytes := sizeof host ty * szbChar
  if miiBytes = sppBytes then
    if host.swap4 then
      achtl host (bswap4 m mii 1 spp 1 (nelems * miiBytes : Nat)) spp spp nelems ty
    else if host.swap2 then
      achtl host (bswap2 m mii 1 spp 1 (nelems * miiBytes : Nat)) spp spp nelems ty
    else achtl host m mii spp nelems ty
  else if 2 * miiBytes = sppBytes then
    let m := i32to64 m mii spp nelems
    if host.swap8 then
      achtl host (bswap8 m spp 1 spp 1 (nelems * sppBytes : Nat)) spp spp nelems ty
    else if host.swap4 then
      achtl host (bswap4 m spp 1 spp 1 (nelems * sppBytes : Nat)) spp spp nelems ty
    else if host.swap2 then
      achtl host (bswap2 m spp 1 spp 1 (nelems * sppBytes : Nat)) spp spp nelems ty
    else achtl host m spp spp nelems ty
  else
    -- "[ERROR] miiupk32.x: unexpected integer size"
    m

end Iraf.Osb
