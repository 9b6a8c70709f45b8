import Formula.Number.Whole

/-!
# Factorials, primorials and the gamma function
-/

set_option autoImplicit false

namespace Formula.Number

/-- Positive infinity. -/
def infinity : Float := 1 / 0

/-- Not a number. -/
def nan : Float := 0 / 0

/-- The circle constant. -/
def pi : Float := 3.141592653589793

/-- The full turn. -/
def tau : Float := 6.283185307179586

/-- Euler's number. -/
def e : Float := 2.718281828459045

/-- Multiplies `acc` by `k`, `k - step`, and so on down to one. The product stops once it is
infinite; `rounds` bounds the factors. -/
def fallingProduct (step : Nat) : Nat → Nat → Float → Float
  | 0, _, acc => acc
  | rounds + 1, k, acc =>
    if 1 < k && acc.isFinite then
      fallingProduct step rounds (k - step) (acc * (ofNat? k).getD infinity)
    else acc

/-- The multifactorial of `k`: the product of `k`, `k - n`, `k - 2 n` and so on. A step of zero
counts as one. -/
def multiFactorial (k n : Nat) : Float :=
  fallingProduct (max n 1) k k 1

/-- The coefficients after the first one of the Lanczos approximation with `g = 7`. -/
def lanczos : List Float :=
  [676.5203681218851, -1259.1392167224028, 771.3234287776531, -176.6150291621406,
   12.507343278686905, -0.13857109526572012, 9.984369578019572e-6, 1.5056327351493116e-7]

/-- The gamma function from one half on, by the Lanczos approximation. -/
def gammaRight (z : Float) : Float :=
  let z := z - 1
  let (x, _) := lanczos.foldl (fun (x, offset) c => (x + c / (z + offset), offset + 1))
    ((0.9999999999998099 : Float), (1 : Float))
  let t := z + 7 + 0.5
  Float.sqrt tau * Float.pow t (z + 0.5) * Float.exp (-t) * x

/-- The gamma function. Left of one half it is reflected; at its poles it is not finite. -/
def gamma (z : Float) : Float :=
  if z < 0.5 then pi / (Float.sin (pi * z) * gammaRight (1 - z)) else gammaRight z

/-- Positive whole numbers too large to be exact, and infinity: every product overflows on them. -/
def isHuge (x : Float) : Bool :=
  0 < x && (x.isInf || (isWhole x && (toNat? x).isNone))

/-- The factorial, extended by the gamma function to numbers with a fraction. Negative whole
numbers have none. -/
def factorial (x : Float) : Float :=
  if isHuge x then infinity
  else
    match toNat? x with
    | some k => if 170 < k then infinity else multiFactorial k 1
    | none => if isWhole x then nan else gamma (x + 1)

/-- The double factorial, of whole numbers that are not negative. -/
def doubleFactorial (x : Float) : Float :=
  if isHuge x then infinity
  else
    match toNat? x with
    | some k => multiFactorial k 2
    | none => nan

/-- Whether no number from two up to the square root divides `k`. -/
def isPrime (k : Nat) : Bool :=
  2 ≤ k && (List.range k).all fun d => d < 2 || k < d * d || k % d != 0

/-- The product of the primes up to a whole number that is not negative. -/
def primorial (x : Float) : Float :=
  if isHuge x then infinity
  else
    match toNat? x with
    | none => nan
    | some n =>
      if 1000 < n then infinity
      else ((List.range (n + 1)).filter isPrime).foldl (fun acc k => acc * Float.ofNat k) 1

end Formula.Number
