import BitnetXdna.Shim.State
import Mathlib.Data.Rat.Defs

/-!
# What the shim offers, and for how many tokens

The configuration that the first `bitnet_xdna_available` call reads from the environment, and the answers that depend on it:
`bitnet_xdna_worth_it` and `bitnet_xdna_token_split` of `runtime/bitnet_xdna.cpp`. The split takes its arithmetic from
`SplitArith`, so that the same text is read over double and over the rationals.
-/

namespace BitnetXdna

/-- The arithmetic of `bitnet_xdna_token_split`: `double` in the code. -/
class SplitArith (Q : Type) extends Add Q, Mul Q, Div Q where
  /-- The conversion from `int64_t`. -/
  ofInt : Int → Q
  half : Q
  le : Q → Q → Bool
  /-- The conversion to `int64_t`, towards zero. -/
  trunc : Q → Int

instance : SplitArith Rat where
  ofInt x := x
  half := 1 / 2
  le a b := decide (a ≤ b)
  trunc q := q.num.tdiv q.den

/-- The environment of the process, as `env_truthy`, `strtol` and `strtod` read it, where a variable is set. -/
structure Environ (Q : Type) where
  bitnetXdna : Bool
  tiles : Option Int
  split : Option Q
  minTokens : Option Int

/-- `g_force_tiles`, `g_split_frac` and `g_min_tokens`. -/
structure Config (Q : Type) where
  gForceTiles : Int
  gSplitFrac : Q
  gMinTokens : Int

section Config

variable {Q : Type} [SplitArith Q]

/-- The globals before the first call. -/
def Config.init : Config Q := ⟨-1, SplitArith.half, 1024⟩

/-- `BITNET_XDNA_TILES`. -/
def Config.setTiles (env : Environ Q) (c : Config Q) : Config Q :=
  match env.tiles with
  | some v => { c with gForceTiles := v }
  | none => c

/-- `BITNET_XDNA_SPLIT`, where it is a fraction. -/
def Config.setSplit (env : Environ Q) (c : Config Q) : Config Q :=
  match env.split with
  | some v =>
    if SplitArith.le (SplitArith.ofInt 0) v && SplitArith.le v (SplitArith.ofInt 1) then { c with gSplitFrac := v } else c
  | none => c

/-- `BITNET_XDNA_MIN_TOKENS`, where it is positive. -/
def Config.setMinTokens (env : Environ Q) (c : Config Q) : Config Q :=
  match env.minTokens with
  | some v => if 0 < v then { c with gMinTokens := v } else c
  | none => c

/-- The floor of `g_min_tokens`. -/
def Config.clampMinTokens (c : Config Q) : Config Q := if c.gMinTokens < kMTile then { c with gMinTokens := kMTile } else c

/-- The configuration once the environment has been read. -/
def Config.resolved (env : Environ Q) : Config Q :=
  (((Config.init.setTiles env).setSplit env).setMinTokens env).clampMinTokens

/-- A product of `int64_t`, as the hardware computes it. -/
def mulInt64 (a b : Int) : Int := (Int64.ofInt (a * b)).toInt

/-- `bitnet_xdna_worth_it`. -/
def bitnetXdnaWorthIt (gMinTokens nTokens : Int) : Bool := decide (nTokens ≥ gMinTokens)

/-- `bitnet_xdna_token_split`. -/
def bitnetXdnaTokenSplit (gForceTiles : Int) (gSplitFrac : Q) (nTokens : Int) : Int :=
  if nTokens ≤ 0 then 0
  else if gForceTiles ≥ 0 then
    let t := mulInt64 gForceTiles kMTile
    if t > nTokens then nTokens else t
  else if nTokens ≤ kMTile then nTokens
  else if SplitArith.le (SplitArith.ofInt 1) gSplitFrac then nTokens
  else if SplitArith.le gSplitFrac (SplitArith.ofInt 0) then 0
  else
    let tiles := SplitArith.trunc
      (SplitArith.ofInt nTokens / SplitArith.ofInt kMTile * gSplitFrac + (SplitArith.half : Q))
    let t := mulInt64 tiles kMTile
    let t := if t < kMTile then (kMTile : Int) else t
    if t > nTokens then nTokens else t

end Config

end BitnetXdna
