import StraceXv6.Kernel.Console

namespace StraceXv6.User

open Data
open Kernel (Word)

/-! The user library's formatted output, as the bytes it writes one at a time. -/

private def digitsOf (base : UInt32) : Nat → UInt32 → List UInt8
  | 0, _ => []
  | fuel + 1, x =>
    (lit "0123456789ABCDEF").getD (x % base).toNat 0 ::
      (if x / base ≠ 0 then digitsOf base fuel (x / base) else [])

def printint (xx base : Int32) (sgn : Bool) : List UInt8 :=
  let neg := sgn ∧ xx < 0
  let x := if neg then -xx else xx
  let buf := digitsOf base.toUInt32 32 x.toUInt32
  let buf := if neg then buf ++ lit "-" else buf
  buf.reverse

def printf : List UInt8 → List Word → List UInt8
  | [], _ => []
  | [c], _ => if c = '%'.toUInt8 then [] else [c]
  | c :: d :: fmt, args =>
    if c ≠ '%'.toUInt8 then c :: printf (d :: fmt) args
    else if d = 'd'.toUInt8 then
      match args with
      | .int value :: args => printint value 10 true ++ printf fmt args
      | _ => []
    else if d = 'x'.toUInt8 ∨ d = 'p'.toUInt8 then
      match args with
      | .int value :: args => printint value 16 false ++ printf fmt args
      | _ => []
    else if d = 's'.toUInt8 then
      match args with
      | .str text :: args => text.getD (lit "(null)") ++ printf fmt args
      | _ => []
    else if d = 'c'.toUInt8 then
      match args with
      | .int value :: args => value.toUInt32.toUInt8 :: printf fmt args
      | _ => []
    else if d = '%'.toUInt8 then d :: printf fmt args
    else '%'.toUInt8 :: d :: printf fmt args

end StraceXv6.User
