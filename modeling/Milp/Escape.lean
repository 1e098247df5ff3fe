import Milp.Json.Token

/-! Escaped characters of quoted texts, as far as formats share them. -/
namespace Milp

/-- The character whose code point the first `n` characters of a text spell as hexadecimal
digits. Surrogates are no characters. -/
def spelled? (n : Nat) (cs : List Char) : Option Char := do
  let digits := cs.take n
  if digits.length = n then
    let ns ← digits.mapM Json.hexValue?
    let code := ns.foldl (fun m d => 16 * m + d) 0
    if code < 0xD800 ∨ (0xE000 ≤ code ∧ code < 0x110000) then some (Char.ofNat code) else none
  else none

end Milp
