import Handy.File.Status
import Handy.Http.Encode
import Handy.Lib.Cut

/-! # The line of a log call

`Logger::logv` puts a line together in an array of 4096 characters: a header made by `snprintf`,
the message behind it by `vsnprintf`, and a line end in place of those the message ends with.
Each of the two returns the length it wanted, so that the second may be told of room that is
not there.
-/

namespace Handy

open Status (Block)

/-- `levelStrs_`. -/
def levelStrs : List Bytes :=
  [[0x4e, 0x55, 0x4c, 0x4c], [0x46, 0x41, 0x54, 0x41, 0x4c], [0x45, 0x52, 0x52, 0x4f, 0x52],
    [0x55, 0x45, 0x52, 0x52], [0x57, 0x41, 0x52, 0x4e], [0x49, 0x4e, 0x46, 0x4f],
    [0x44, 0x45, 0x42, 0x55, 0x47], [0x54, 0x52, 0x41, 0x43, 0x45], [0x41, 0x4c, 0x4c]]

/-- `%0<width>d` of a number that is not negative. -/
def padded (width n : Nat) : Bytes := List.replicate (width - (decimal n).length) 0x30 ++ decimal n

/-- `%lx`. -/
def hexadecimal (n : Nat) : Bytes := (Nat.toDigits 16 n).map fun c => UInt8.ofNat c.toNat

/-- What the header is made of. -/
structure LogHeader where
  year : Nat
  month : Nat
  day : Nat
  hour : Nat
  minute : Nat
  second : Nat
  usec : Nat
  tid : Nat
  level : Fin 9
  file : CString
  line : Nat
  func : CString

namespace LogHeader

/-- `"%04d/%02d/%02d-%02d:%02d:%02d.%06d "`. -/
def stamp (h : LogHeader) : Bytes :=
  padded 4 h.year ++ [0x2f] ++ padded 2 h.month ++ [0x2f] ++ padded 2 h.day ++ [0x2d] ++
    padded 2 h.hour ++ [0x3a] ++ padded 2 h.minute ++ [0x3a] ++ padded 2 h.second ++ [0x2e] ++
    padded 6 h.usec ++ [0x20]

/-- `"%lx %s %s:%d %s: "`. -/
def place (h : LogHeader) : Bytes :=
  hexadecimal h.tid ++ [0x20] ++ levelStrs.getD h.level [] ++ [0x20] ++ h.file.bytes ++ [0x3a] ++
    decimal h.line ++ [0x20] ++ h.func.bytes ++ [0x3a, 0x20]

def text (h : LogHeader) : Bytes := h.stamp ++ h.place

end LogHeader

namespace LogHeader

end LogHeader

namespace LogHeader

/-- `"hi\n\n"`. -/
def greeting : CString := ⟨[0x68, 0x69, 0x0a, 0x0a], by decide⟩

end LogHeader

end Handy
