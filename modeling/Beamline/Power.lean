/-!
# Powers — one reading of `^`

Formats state their bounds as powers of two and ten. There can be more than one instance for these,
and which one is taken must not depend on what else a module imports.
-/

set_option autoImplicit false

attribute [instance (high), default_instance high + 1] instPowNat
