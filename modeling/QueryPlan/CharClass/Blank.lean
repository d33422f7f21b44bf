import QueryPlan.CharClass

/-!
# White space

* `CharClass.blank`: the characters that count as white space.
* `isBlankText`: whether a text has nothing but white space.
-/

namespace QueryPlan

/-- The characters that count as white space. -/
def CharClass.blank : CharClass where
  ranges :=
    [(0x9, 0xD), (0x20, 0x20), (0x85, 0x85), (0xA0, 0xA0), (0x1680, 0x1680), (0x2000, 0x200A),
      (0x2028, 0x2029), (0x202F, 0x202F), (0x205F, 0x205F), (0x3000, 0x3000)]

/-- Whether a text has nothing but white space. -/
def isBlankText (text : String) : Bool := text.toList.all CharClass.blank.holds

end QueryPlan
