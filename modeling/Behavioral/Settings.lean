/-!
# Settings

What a caller may choose: the ambient temperature that an expression can name, whether constant
subexpressions are folded and unused constants dropped, and the relative step of numeric
derivatives.
-/

namespace Behavioral

structure Settings where
  /-- In kelvin. -/
  ambientTemperature : Float := 300.15
  foldConstants : Bool := true
  pruneConstants : Bool := true
  relativeStep : Float := 1e-9

end Behavioral
