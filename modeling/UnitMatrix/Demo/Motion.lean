import UnitMatrix.Demo.Units

/-! An array that is there already, seen as a state of motion. The state is changed in place, and
what it is then can be printed, copied into storage of its own, and found again in the array. -/

namespace UnitMatrix

namespace Demo

structure MotionReport where
  text : String
  owned : Matrix .double
  array : Grid Float

/-- Sets the position, adds to the velocity, takes from the acceleration, and scales it all. -/
def moveArray (array : Grid Float) (position velocity acceleration factor : Float) :
    Outcome MotionReport := do
  let m : Matrix .double := ⟨.dynamic, ⟨motion, [.identity]⟩, array⟩
  let m ← m.write (.listed 0 0) position
  let m ← m.increase (.listed 1 0) velocity
  let m ← m.decrease (.entry 2) acceleration
  let m ← m.scale .double factor
  let text ← m.display none
  let owned ← state.ofCompatible m
  .ok ⟨text, owned, m.storage⟩

end Demo

end UnitMatrix
