import Chton.BoundedOrigins
import Chton.MemoryOrigins

/-!
# Origins over a medium

The origins over a file and over a mapped file, on a 64-bit target. The files are ideal: a
write of at least one byte fills a gap before it with zeros, a write of none changes nothing,
a read returns what is there, `set_len` extends with zeros, and a mapping shows the bytes of
its file. What is dropped with an origin is its position in the file, its mapping and its
cached length; opening the medium again sets them up from the file.
-/

namespace Chton.MediumOrigins
open OutcomePrograms ByteRegions Origins CoordMapProgram MemoryOrigins BoundedOrigins

instance {w : ℕ} : Medium (MemoryOrigin w) where
  bytes := MemoryOrigin.data
  reopen o := o

/-- `write_all` at a position: an empty write changes nothing. -/
def writeAll (file : Bytes) (offset : ℕ) (data : Bytes) : Bytes :=
  if data = [] then file else overlay file offset data

/-- `File::set_len`. -/
def setLen (file : Bytes) (size : ℕ) : Bytes :=
  file.take size ++ List.replicate (size - file.length) 0

/-- `EINVAL`. -/
abbrev invalidArgument : ℕ := 22

structure FileOrigin where
  file : Bytes
  len : ℕ
  deriving DecidableEq

namespace FileOrigin

/-- `FileOrigin::open` over a file with these bytes. -/
def openFile (file : Bytes) : FileOrigin := ⟨file, file.length⟩

/-- `seek(SeekFrom::Start(offset))`: the position of a file is signed. -/
def seek (offset : ℕ) : EStateM (Stop OriginError) FileOrigin Unit :=
  if offset < 2 ^ 63 then pure () else throw (.err (.io invalidArgument))

end FileOrigin

instance : Medium FileOrigin where
  len o := o.len
  read offset n := do
    FileOrigin.seek offset
    let o ← get
    pure ((o.file.drop offset).take n)
  write offset data := do
    let stop := offset + data.length
    if stop < 2 ^ 64 then
      FileOrigin.seek offset
      modify fun o => ({ o with file := writeAll o.file offset data } : FileOrigin)
      modify fun o => if stop > o.len then ({ o with len := stop } : FileOrigin) else o
    else throw (.err .unsupported)
  flush := pure ()
  bytes := FileOrigin.file
  reopen o := FileOrigin.openFile o.file

/-- The mapping, when there is one, shows the first `map` bytes of the file. -/
structure MappedFileOrigin where
  file : Bytes
  map : Option ℕ
  len : ℕ
  deriving DecidableEq

namespace MappedFileOrigin

/-- `MappedFileOrigin::open` over a file with these bytes: an empty file is not mapped. -/
def openFile (file : Bytes) : MappedFileOrigin :=
  ⟨file, if file.length > 0 then some file.length else none, file.length⟩

/-- `self.map.expect(..)`. -/
def mapped : EStateM (Stop OriginError) MappedFileOrigin ℕ := do
  let o ← get
  match o.map with
  | some size => pure size
  | none => throw (.panic .unwrap)

/-- `&mut map[start..start + data.len()]`, filled with `data`. -/
def copy (size start : ℕ) (data : Bytes) : EStateM (Stop OriginError) MappedFileOrigin Unit :=
  if start + data.length ≤ size then
    modify fun o => { o with file := writeAll o.file start data }
  else throw (.panic .assertion)

end MappedFileOrigin

instance : Medium MappedFileOrigin where
  len o := o.len
  read offset n := do
    let o ← get
    let start := asUsize 64 offset
    if start ≥ asUsize 64 o.len then pure [] else
    let size ← MappedFileOrigin.mapped
    let n := min (asUsize 64 o.len - start) n
    if start + n ≤ size then pure ((o.file.drop start).take n) else throw (.panic .assertion)
  write offset data := do
    let stop := offset + data.length
    if stop < 2 ^ 64 then
      let o ← get
      if stop > o.len then
        set (⟨setLen o.file stop, some stop, stop⟩ : MappedFileOrigin)
        MappedFileOrigin.copy stop (asUsize 64 offset) data
      else if o.map = none then pure () else
        let size ← MappedFileOrigin.mapped
        MappedFileOrigin.copy size (asUsize 64 offset) data
    else throw (.err (.outOfBounds offset (2 ^ 64 - 1)))
  flush := pure ()
  bytes := MappedFileOrigin.file
  reopen o := MappedFileOrigin.openFile o.file

instance {bound : ℕ} : Medium (BoundedOrigin bound) where
  toOrigin := ByteOrigin.toOrigin
  bytes := BoundedOrigin.data
  reopen o := o

end Chton.MediumOrigins
