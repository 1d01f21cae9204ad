import ClassAudit.Text.Basic
/-!
# Vocabularies

The closed word lists that utility classes draw their suffixes from, and the four tests that go
beyond a plain word list: shaded colours, colour names, spacing steps and fractions.
-/

namespace ClassAudit.Vocabulary

/-- The generic spacing steps. -/
def spacing : List Text := Text.table
  ["0", "px", "0.5", "1", "1.5", "2", "2.5", "3", "3.5", "4", "5", "6", "7", "8", "9", "10", "11",
   "12", "14", "16", "20", "24", "28", "32", "36", "40", "44", "48", "52", "56", "60", "64", "72",
   "80", "96"]

/-- Border widths; the empty one is the plain stem. -/
def borderWidths : List Text := Text.table
  ["", "0", "2", "4", "8"]

/-- Widths of the lines between children. -/
def divideWidths : List Text := Text.table
  ["", "0", "2", "4", "8", "reverse"]

/-- Ring widths. -/
def ringWidths : List Text := Text.table
  ["0", "1", "2", "4", "8"]

/-- Outline widths. -/
def outlineWidths : List Text := Text.table
  ["0", "1", "2", "4", "8"]

/-- Text sizes. -/
def textSizes : List Text := Text.table
  ["xs", "sm", "base", "lg", "xl", "2xl", "3xl", "4xl", "5xl", "6xl", "7xl", "8xl", "9xl"]

/-- Container sizes. -/
def containerSizes : List Text := Text.table
  ["3xs", "2xs", "xs", "sm", "md", "lg", "xl", "2xl", "3xl", "4xl", "5xl", "6xl", "7xl"]

/-- Viewport breakpoints. -/
def breakpoints : List Text := Text.table
  ["sm", "md", "lg", "xl", "2xl"]

/-- Font weights. -/
def fontWeights : List Text := Text.table
  ["thin", "extralight", "light", "normal", "medium", "semibold", "bold", "extrabold", "black"]

/-- Font families. -/
def fontFamilies : List Text := Text.table
  ["sans", "serif", "mono"]

/-- Letter spacings. -/
def letterSpacings : List Text := Text.table
  ["tighter", "tight", "normal", "wide", "wider", "widest"]

/-- Line heights. -/
def lineHeights : List Text := Text.table
  ["none", "tight", "snug", "normal", "relaxed", "loose", "3", "4", "5", "6", "7", "8", "9", "10"]

/-- Box shadows. -/
def shadows : List Text := Text.table
  ["", "2xs", "xs", "sm", "md", "lg", "xl", "2xl", "inner", "none"]

/-- Drop shadows. -/
def dropShadows : List Text := Text.table
  ["", "xs", "sm", "md", "lg", "xl", "2xl", "none"]

/-- Blur radii. -/
def blurs : List Text := Text.table
  ["", "none", "xs", "sm", "md", "lg", "xl", "2xl", "3xl"]

/-- Corner radii. -/
def cornerRadii : List Text := Text.table
  ["", "none", "xs", "sm", "md", "lg", "xl", "2xl", "3xl", "4xl", "full"]

/-- Opacity steps. -/
def opacities : List Text := Text.table
  ["0", "5", "10", "15", "20", "25", "30", "35", "40", "45", "50", "55", "60", "65", "70", "75",
   "80", "85", "90", "95", "100"]

/-- Stacking levels. -/
def stackLevels : List Text := Text.table
  ["0", "10", "20", "30", "40", "50", "auto"]

/-- Item orders. -/
def flexOrders : List Text := Text.table
  ["first", "last", "none", "1", "2", "3", "4", "5", "6", "7", "8", "9", "10", "11", "12"]

/-- Track counts of a grid. -/
def gridTracks : List Text := Text.table
  ["none", "subgrid", "1", "2", "3", "4", "5", "6", "7", "8", "9", "10", "11", "12"]

/-- Spans of a grid item. -/
def gridSpans : List Text := Text.table
  ["auto", "full", "1", "2", "3", "4", "5", "6", "7", "8", "9", "10", "11", "12"]

/-- Lines of a grid. -/
def gridLines : List Text := Text.table
  ["auto", "1", "2", "3", "4", "5", "6", "7", "8", "9", "10", "11", "12", "13"]

/-- Durations in milliseconds. -/
def durations : List Text := Text.table
  ["0", "75", "100", "150", "200", "300", "500", "700", "1000"]

/-- Zoom levels in percent. -/
def zoomLevels : List Text := Text.table
  ["0", "50", "75", "90", "95", "100", "105", "110", "125", "150"]

/-- Rotations in degrees. -/
def rotations : List Text := Text.table
  ["0", "1", "2", "3", "6", "12", "45", "90", "180"]

/-- Skews in degrees. -/
def skews : List Text := Text.table
  ["0", "1", "2", "3", "6", "12"]

/-- Brightness levels. -/
def brightnesses : List Text := Text.table
  ["0", "50", "75", "90", "95", "100", "105", "110", "125", "150", "200"]

/-- Contrast levels. -/
def contrasts : List Text := Text.table
  ["0", "50", "75", "100", "125", "150", "200"]

/-- Saturation levels. -/
def saturations : List Text := Text.table
  ["0", "50", "100", "150", "200"]

/-- Hue rotations in degrees. -/
def hueRotations : List Text := Text.table
  ["0", "15", "30", "60", "90", "180"]

/-- A filter that is either on or off. -/
def onOff : List Text := Text.table
  ["", "0"]

/-- Positions of a gradient stop. -/
def gradientStops : List Text := Text.table
  ["0%", "5%", "10%", "15%", "20%", "25%", "30%", "35%", "40%", "45%", "50%", "55%", "60%", "65%",
   "70%", "75%", "80%", "85%", "90%", "95%", "100%"]

/-- Colours without a shade. -/
def keywordColors : List Text := Text.table
  ["inherit", "current", "transparent", "black", "white"]

/-- Colours with shades. -/
def colorFamilies : List Text := Text.table
  ["slate", "gray", "zinc", "neutral", "stone", "red", "orange", "amber", "yellow", "lime",
   "green", "emerald", "teal", "cyan", "sky", "blue", "indigo", "violet", "purple", "fuchsia",
   "pink", "rose"]

/-- The shades of a colour family. -/
def colorShades : List Text := Text.table
  ["50", "100", "200", "300", "400", "500", "600", "700", "800", "900", "950"]

/-- Whether a word is a colour that needs no shade. -/
def isColorName (word : Text) : Bool :=
  keywordColors.contains word || colorFamilies.contains word

/-- Whether a word is a colour family, a hyphen and one of its shades. -/
def isShadedColor (word : Text) : Bool :=
  match word.cutLast? '-' with
  | some (family, shade) => colorFamilies.contains family && colorShades.contains shade
  | none => false

/-- Whether a word is a generic spacing step. -/
def isSpacing (word : Text) : Bool :=
  spacing.contains word

/-- Whether a text is a non-empty run of decimal digits. -/
def isDigits (word : Text) : Bool :=
  !word.isEmpty && word.all Char.isDigit

/-- Whether a word is two runs of digits around one slash. -/
def isFraction (word : Text) : Bool :=
  match word.cut? '/' with
  | some (above, below) => isDigits above && isDigits below
  | none => false

end ClassAudit.Vocabulary
