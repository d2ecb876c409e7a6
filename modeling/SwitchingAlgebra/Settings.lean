/-
# Settings

Capacities of the caches and limits of the algorithms.
-/
import SwitchingAlgebra.Fault

namespace SwitchingAlgebra

/-- The settings of a workbench. -/
structure Settings where
  valueCapacity : Int := 1000
  mintermCapacity : Int := 256
  mapCapacity : Int := 128
  influenceCapacity : Int := 128
  /-- How many laws a derivation may use. -/
  maxSteps : Int := 100
  /-- How many variables the search for prime implicants takes on. -/
  maxImplicantVariables : Int := 16
  /-- How many variables are compared by truth tables. -/
  maxTableVariables : Int := 12
  /-- How many variables have their influence counted over all assignments. -/
  maxCountedVariables : Int := 10
  /-- How many assignments are drawn where not all are counted. -/
  samples : Int := 1000
  deriving DecidableEq

/-- The settings, if derivations may make a step and at least one sample is drawn. -/
def Settings.checked (s : Settings) : Except Fault Settings :=
  if s.maxSteps < 1 then .error (.invalid .ruleIterations)
  else if s.samples < 1 then .error (.invalid .samples)
  else .ok s

end SwitchingAlgebra
