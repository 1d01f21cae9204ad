import ClassAudit.Text.Basic
/-!
# Ignore patterns

The patterns of class names that are never reported. What a pattern matches is told by a library of
regular expressions, which is a parameter. A pattern that repeats a repetition, by its looks, is
dropped, and so is one that the library refuses.
-/

namespace ClassAudit

/-- What a library of regular expressions makes of a pattern: a test for the texts that the pattern
matches somewhere, unless the pattern is refused. -/
abbrev PatternReader := Text → Option (Text → Bool)

/-- A pattern and the test that the library made of it. -/
structure IgnorePattern where
  source : Text
  /-- Whether the pattern matches some part of a class name. -/
  isMatch : Text → Bool

namespace IgnorePattern

/-- The look of a repeated repetition, as a pattern: a repetition in a group that is repeated, or
two repetitions on one line. -/
def shapeSource : Text :=
  "(\\(.*[+*].*\\)[+*])|([+*].*[+*])".toList

/-- Whether a pattern has the look of a repeated repetition. Only a pattern with a group and both
kinds of repetition is looked at, and none has the look if the library refuses the shape. -/
def looksNested (read? : PatternReader) (source : Text) : Bool :=
  source.contains '(' && source.contains '+' && source.contains '*' &&
    (read? shapeSource).any fun isMatch => isMatch source

/-- Reads a pattern, unless it is dropped. -/
def compile? (read? : PatternReader) (source : Text) : Option IgnorePattern :=
  if looksNested read? source then none else (read? source).map (⟨source, ·⟩)

/-- The patterns that are kept, in order. -/
def compileAll (read? : PatternReader) (sources : List Text) : List IgnorePattern :=
  sources.filterMap (compile? read?)

end IgnorePattern

end ClassAudit
