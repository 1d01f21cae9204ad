import ClassAudit.Utility.Vocabulary
/-!
# The utility table

Which names stand alone, and which suffixes each stem takes. A stem is the part of a utility class
before the hyphen of its suffix.
-/

namespace ClassAudit

/-- What may follow a stem and its hyphen. -/
structure Suffixes where
  /-- The listed suffixes, in table order. -/
  values : List Text
  /-- Colours, shaded or not, are suffixes too. -/
  colors : Bool := false
  /-- The generic spacing steps are not suffixes. -/
  narrow : Bool := false
  /-- Both ends of the range of plain integers that are suffixes too. -/
  integers : Option (Nat × Nat) := none
  deriving DecidableEq

namespace Suffixes

/-- Whether a suffix is listed. -/
def lists (suffixes : Suffixes) (suffix : Text) : Bool :=
  suffixes.values.contains suffix

/-- Whether a plain integer is in the range. -/
def acceptsInteger (suffixes : Suffixes) (value : Nat) : Bool :=
  suffixes.integers.any fun range => range.1 ≤ value && value ≤ range.2

end Suffixes

/-- A row of the utility table. -/
inductive Entry where
  /-- The name is a whole utility class and takes no suffix. -/
  | alone
  /-- The name is a stem. -/
  | stem (suffixes : Suffixes)
  deriving DecidableEq

namespace UtilityTable

open Vocabulary
open Text (table)

private def each (names : List String) (suffixes : Suffixes) : List (Text × Entry) :=
  (table names).map fun name => (name, .stem suffixes)

/-- The names that are whole utility classes. -/
def aloneNames : List Text := table
  ["block", "inline-block", "inline", "inline-flex", "inline-table", "inline-grid", "flow-root",
   "grid", "contents", "list-item", "hidden", "container", "static", "fixed", "absolute",
   "relative", "sticky", "visible", "invisible", "collapse", "isolate", "italic", "not-italic",
   "uppercase", "lowercase", "capitalize", "normal-case", "truncate", "underline", "overline",
   "line-through", "no-underline", "antialiased", "subpixel-antialiased", "sr-only",
   "not-sr-only", "group", "peer", "space-x-reverse", "space-y-reverse", "bg-gradient-to-t",
   "bg-gradient-to-tr", "bg-gradient-to-r", "bg-gradient-to-br", "bg-gradient-to-b",
   "bg-gradient-to-bl", "bg-gradient-to-l", "bg-gradient-to-tl"]

/-- Position, flow and overflow. -/
def layout : List (Text × Entry) :=
  each ["overflow", "overflow-x", "overflow-y"]
    { values := table ["auto", "hidden", "clip", "visible", "scroll"] } ++
  each ["overscroll", "overscroll-x", "overscroll-y"]
    { values := table ["auto", "contain", "none"] } ++
  each ["z"] { values := stackLevels } ++
  each ["order"] { values := flexOrders, integers := some (1, 12) } ++
  each ["isolation"] { values := table ["auto"] } ++
  each ["box"]
    { values := table ["border", "content", "decoration-clone", "decoration-slice"] } ++
  each ["float"] { values := table ["right", "left", "none", "start", "end"] } ++
  each ["clear"] { values := table ["left", "right", "both", "none", "start", "end"] } ++
  each ["object"]
    { values := table ["contain", "cover", "fill", "none", "scale-down", "bottom", "center",
      "left", "left-bottom", "left-top", "right", "right-bottom", "right-top", "top"] } ++
  each ["aspect"] { values := table ["auto", "square", "video"] } ++
  each ["columns"] { values := table ["auto"] ++ containerSizes, integers := some (1, 12) } ++
  each ["break-after", "break-before"]
    { values := table ["auto", "avoid", "all", "avoid-page", "page", "left", "right",
      "column"] } ++
  each ["break-inside"] { values := table ["auto", "avoid", "avoid-page", "avoid-column"] } ++
  each ["break"] { values := table ["normal", "words", "all", "keep"] } ++
  each ["inset", "inset-x", "inset-y", "start", "end", "top", "right", "bottom", "left"]
    { values := table ["auto", "full", "px"] }

/-- Flexible boxes and grids. -/
def boxes : List (Text × Entry) :=
  each ["flex"]
    { values := table ["", "1", "auto", "initial", "none", "row", "row-reverse", "col",
      "col-reverse", "wrap", "wrap-reverse", "nowrap", "grow", "grow-0", "shrink", "shrink-0"] } ++
  each ["grow", "shrink", "flex-grow", "flex-shrink"] { values := onOff } ++
  each ["basis"] { values := table ["auto", "full", "px"] ++ containerSizes } ++
  each ["grid-cols", "grid-rows"] { values := gridTracks, integers := some (1, 12) } ++
  each ["col-span", "row-span"] { values := gridSpans } ++
  each ["col-start", "col-end", "row-start", "row-end"] { values := gridLines } ++
  each ["col", "row"] { values := table ["auto"] } ++
  each ["grid-flow"] { values := table ["row", "col", "dense", "row-dense", "col-dense"] } ++
  each ["auto-cols", "auto-rows"] { values := table ["auto", "min", "max", "fr"] } ++
  each ["gap", "gap-x", "gap-y"] { values := [] } ++
  each ["justify"]
    { values := table ["normal", "start", "end", "center", "between", "around", "evenly",
      "stretch"] } ++
  each ["justify-items", "place-items"]
    { values := table ["normal", "start", "end", "center", "stretch", "baseline"] } ++
  each ["justify-self", "place-self", "self"]
    { values := table ["auto", "start", "end", "center", "stretch", "baseline"] } ++
  each ["items"] { values := table ["start", "end", "center", "baseline", "stretch"] } ++
  each ["content", "place-content"]
    { values := table ["normal", "center", "start", "end", "between", "around", "evenly",
      "baseline", "stretch", "none"] }

/-- Padding, margins and gaps. -/
def gaps : List (Text × Entry) :=
  each ["p", "px", "py", "ps", "pe", "pt", "pr", "pb", "pl"] { values := [] } ++
  each ["m", "mx", "my", "ms", "me", "mt", "mr", "mb", "ml"] { values := table ["auto"] } ++
  each ["space-x", "space-y"] { values := [] } ++
  each ["scroll-m", "scroll-mx", "scroll-my", "scroll-ms", "scroll-me", "scroll-mt",
      "scroll-mr", "scroll-mb", "scroll-ml", "scroll-p", "scroll-px", "scroll-py", "scroll-ps",
      "scroll-pe", "scroll-pt", "scroll-pr", "scroll-pb", "scroll-pl"]
    { values := [] }

/-- Widths and heights. -/
def sizes : List (Text × Entry) :=
  each ["w"]
    { values := table ["auto", "full", "screen", "svw", "lvw", "dvw", "min", "max", "fit",
      "px"] ++ containerSizes } ++
  each ["min-w"]
    { values := table ["auto", "full", "min", "max", "fit", "px"] ++ containerSizes } ++
  each ["max-w"]
    { values := table ["none", "full", "min", "max", "fit", "px", "prose", "screen-sm",
      "screen-md", "screen-lg", "screen-xl", "screen-2xl"] ++ containerSizes } ++
  each ["h"]
    { values := table ["auto", "full", "screen", "svh", "lvh", "dvh", "min", "max", "fit",
      "px", "lh"] } ++
  each ["min-h", "max-h"]
    { values := table ["auto", "none", "full", "screen", "svh", "lvh", "dvh", "min", "max",
      "fit", "px", "lh"] } ++
  each ["size"] { values := table ["auto", "full", "min", "max", "fit", "px"] }

/-- Type. -/
def typography : List (Text × Entry) :=
  each ["font"] { values := fontWeights ++ fontFamilies } ++
  each ["text"]
    { values := textSizes ++ table ["left", "center", "right", "justify", "start", "end",
      "wrap", "nowrap", "balance", "pretty", "ellipsis", "clip"], colors := true } ++
  each ["leading"] { values := lineHeights } ++
  each ["tracking"] { values := letterSpacings } ++
  each ["line-clamp"] { values := table ["none", "1", "2", "3", "4", "5", "6"] } ++
  each ["indent"] { values := [] } ++
  each ["decoration"]
    { values := table ["solid", "double", "dotted", "dashed", "wavy", "auto", "from-font",
      "0", "1", "2", "4", "8", "clone", "slice"], colors := true } ++
  each ["underline-offset"] { values := table ["auto", "0", "1", "2", "4", "8"] } ++
  each ["whitespace"]
    { values := table ["normal", "nowrap", "pre", "pre-line", "pre-wrap", "break-spaces"] } ++
  each ["hyphens"] { values := table ["none", "manual", "auto"] } ++
  each ["list"] { values := table ["inside", "outside", "none", "disc", "decimal"] } ++
  each ["align"]
    { values := table ["baseline", "top", "middle", "bottom", "text-top", "text-bottom",
      "sub", "super"] } ++
  each ["prose"] { values := table ["", "sm", "base", "lg", "xl", "2xl", "invert"] }

/-- Backgrounds and gradients. -/
def backgrounds : List (Text × Entry) :=
  each ["bg"]
    { values := table ["fixed", "local", "scroll", "auto", "cover", "contain", "repeat",
      "no-repeat", "repeat-x", "repeat-y", "repeat-round", "repeat-space", "bottom", "center",
      "left", "left-bottom", "left-top", "right", "right-bottom", "right-top", "top", "none",
      "clip-border", "clip-padding", "clip-content", "clip-text", "origin-border",
      "origin-padding", "origin-content"], colors := true } ++
  each ["from", "via", "to"] { values := gradientStops, colors := true }

/-- Borders, rings and outlines. -/
def borders : List (Text × Entry) :=
  each ["border"]
    { values := borderWidths ++ table ["solid", "dashed", "dotted", "double", "hidden",
      "none", "collapse", "separate"], colors := true, narrow := true } ++
  each ["border-x", "border-y", "border-s", "border-e", "border-t", "border-r", "border-b",
      "border-l"]
    { values := borderWidths, colors := true, narrow := true } ++
  each ["border-spacing", "border-spacing-x", "border-spacing-y"] { values := [] } ++
  each ["divide"]
    { values := table ["solid", "dashed", "dotted", "double", "none"], colors := true } ++
  each ["divide-x", "divide-y"] { values := divideWidths, narrow := true } ++
  each ["ring"]
    { values := table [""] ++ ringWidths ++ table ["inset"], colors := true, narrow := true } ++
  each ["ring-offset"] { values := ringWidths, colors := true, narrow := true } ++
  each ["outline"]
    { values := table ["", "none", "hidden", "solid", "dashed", "dotted", "double"] ++
      outlineWidths, colors := true, narrow := true } ++
  each ["outline-offset"] { values := outlineWidths, narrow := true } ++
  each ["rounded", "rounded-s", "rounded-e", "rounded-t", "rounded-r", "rounded-b",
      "rounded-l", "rounded-ss", "rounded-se", "rounded-ee", "rounded-es", "rounded-tl",
      "rounded-tr", "rounded-br", "rounded-bl"]
    { values := cornerRadii }

/-- Strokes, fills and the colours of form controls. -/
def paint : List (Text × Entry) :=
  each ["fill"] { values := table ["none"], colors := true } ++
  each ["stroke"] { values := table ["none", "0", "1", "2"], colors := true } ++
  each ["accent"] { values := table ["auto"], colors := true } ++
  each ["caret", "placeholder"] { values := [], colors := true }

/-- Shadows, blending and filters. -/
def effects : List (Text × Entry) :=
  each ["shadow"] { values := shadows, colors := true } ++
  each ["drop-shadow"] { values := dropShadows } ++
  each ["opacity", "backdrop-opacity"] { values := opacities } ++
  each ["mix-blend", "bg-blend"]
    { values := table ["normal", "multiply", "screen", "overlay", "darken", "lighten",
      "color-dodge", "color-burn", "hard-light", "soft-light", "difference", "exclusion", "hue",
      "saturation", "color", "luminosity", "plus-darker", "plus-lighter"] } ++
  each ["filter", "backdrop-filter"] { values := table ["", "none"] } ++
  each ["blur", "backdrop-blur"] { values := blurs } ++
  each ["brightness", "backdrop-brightness"] { values := brightnesses } ++
  each ["contrast", "backdrop-contrast"] { values := contrasts } ++
  each ["saturate", "backdrop-saturate"] { values := saturations } ++
  each ["hue-rotate", "backdrop-hue-rotate"] { values := hueRotations } ++
  each ["grayscale", "invert", "sepia", "backdrop-grayscale", "backdrop-invert",
      "backdrop-sepia"]
    { values := onOff }

/-- Transforms. -/
def transforms : List (Text × Entry) :=
  each ["transform"] { values := table ["", "none", "gpu", "cpu"] } ++
  each ["scale", "scale-x", "scale-y"] { values := zoomLevels } ++
  each ["rotate"] { values := rotations } ++
  each ["skew-x", "skew-y"] { values := skews } ++
  each ["translate-x", "translate-y"] { values := table ["full", "px"] } ++
  each ["origin"]
    { values := table ["center", "top", "top-right", "right", "bottom-right", "bottom",
      "bottom-left", "left", "top-left"] }

/-- Transitions and animation. -/
def motion : List (Text × Entry) :=
  each ["transition"]
    { values := table ["", "none", "all", "colors", "opacity", "shadow", "transform"] } ++
  each ["duration", "delay"] { values := durations } ++
  each ["ease"] { values := table ["linear", "in", "out", "in-out"] } ++
  each ["animate"] { values := table ["none", "spin", "ping", "pulse", "bounce"] }

/-- Cursor, scrolling and touch. -/
def interaction : List (Text × Entry) :=
  each ["cursor"]
    { values := table ["auto", "default", "pointer", "wait", "text", "move", "help",
      "not-allowed", "none", "context-menu", "progress", "cell", "crosshair", "vertical-text",
      "alias", "copy", "no-drop", "grab", "grabbing", "all-scroll", "col-resize", "row-resize",
      "n-resize", "e-resize", "s-resize", "w-resize", "ne-resize", "nw-resize", "se-resize",
      "sw-resize", "ew-resize", "ns-resize", "nesw-resize", "nwse-resize", "zoom-in",
      "zoom-out"] } ++
  each ["select"] { values := table ["none", "text", "all", "auto"] } ++
  each ["resize"] { values := table ["", "none", "y", "x"] } ++
  each ["scroll"] { values := table ["auto", "smooth"] } ++
  each ["snap"]
    { values := table ["start", "end", "center", "align-none", "normal", "always", "x", "y",
      "both", "mandatory", "proximity", "none"] } ++
  each ["touch"]
    { values := table ["auto", "none", "pan-x", "pan-left", "pan-right", "pan-y", "pan-up",
      "pan-down", "pinch-zoom", "manipulation"] } ++
  each ["pointer-events"] { values := table ["none", "auto"] } ++
  each ["appearance"] { values := table ["none", "auto"] } ++
  each ["will-change"] { values := table ["auto", "scroll", "contents", "transform"] } ++
  each ["forced-color-adjust"] { values := table ["auto", "none"] }

/-- Tables. -/
def tables : List (Text × Entry) :=
  each ["table"]
    { values := table ["", "auto", "fixed", "caption", "cell", "column", "column-group",
      "footer-group", "header-group", "row-group", "row"] } ++
  each ["caption"] { values := table ["top", "bottom"] }

/-- The rows of the table. -/
def entries : List (Text × Entry) :=
  aloneNames.map (fun name => (name, .alone)) ++ layout ++ boxes ++ gaps ++ sizes ++ typography ++
    backgrounds ++ borders ++ paint ++ effects ++ transforms ++ motion ++ interaction ++ tables

/-- The row of a name. -/
def entry? (name : Text) : Option Entry :=
  entries.lookup name

/-- The suffixes of a name that is a stem. -/
def suffixes? (name : Text) : Option Suffixes :=
  match entry? name with
  | some (.stem suffixes) => some suffixes
  | _ => none

/-- Whether a name is a whole utility class: it stands alone, or it is a stem that may also be
followed by nothing. -/
def isComplete (name : Text) : Bool :=
  match entry? name with
  | some .alone => true
  | some (.stem suffixes) => suffixes.lists []
  | none => false

/-- The number of rows. -/
def size : Nat := entries.length

/-- The stems that take an arbitrary value in brackets or a variable in parentheses. -/
def arbitraryStems : List Text := table
  ["w", "h", "min-w", "max-w", "min-h", "max-h", "size", "basis", "p", "px", "py", "ps", "pe",
   "pt", "pr", "pb", "pl", "m", "mx", "my", "ms", "me", "mt", "mr", "mb", "ml", "gap", "gap-x",
   "gap-y", "space-x", "space-y", "top", "right", "bottom", "left", "inset", "inset-x", "inset-y",
   "start", "end", "z", "order", "grow", "shrink", "flex", "text", "font", "bg", "border",
   "border-x", "border-y", "border-s", "border-e", "border-t", "border-r", "border-b", "border-l",
   "ring", "ring-offset", "outline", "outline-offset", "fill", "stroke", "divide", "divide-x",
   "divide-y", "shadow", "drop-shadow", "opacity", "blur", "brightness", "contrast", "grayscale",
   "hue-rotate", "invert", "saturate", "sepia", "scale", "scale-x", "scale-y", "rotate",
   "translate-x", "translate-y", "skew-x", "skew-y", "origin", "backdrop-blur",
   "backdrop-brightness", "backdrop-contrast", "backdrop-grayscale", "backdrop-hue-rotate",
   "backdrop-invert", "backdrop-opacity", "backdrop-saturate", "backdrop-sepia", "transition",
   "duration", "delay", "ease", "animate", "rounded", "rounded-s", "rounded-e", "rounded-t",
   "rounded-r", "rounded-b", "rounded-l", "rounded-ss", "rounded-se", "rounded-ee", "rounded-es",
   "rounded-tl", "rounded-tr", "rounded-br", "rounded-bl", "from", "via", "to", "accent", "caret",
   "placeholder", "scroll-m", "scroll-mx", "scroll-my", "scroll-ms", "scroll-me", "scroll-mt",
   "scroll-mr", "scroll-mb", "scroll-ml", "scroll-p", "scroll-px", "scroll-py", "scroll-ps",
   "scroll-pe", "scroll-pt", "scroll-pr", "scroll-pb", "scroll-pl", "grid-cols", "grid-rows",
   "auto-cols", "auto-rows", "col-span", "col-start", "col-end", "row-span", "row-start",
   "row-end", "columns", "aspect", "border-spacing", "indent", "scroll", "snap", "will-change",
   "content", "cursor", "list", "object", "decoration", "underline-offset", "leading", "tracking",
   "line-clamp"]

/-- The stems whose utility classes may be negated. -/
def negativeStems : List Text := table
  ["top", "right", "bottom", "left", "inset", "inset-x", "inset-y", "start", "end", "translate-x",
   "translate-y", "rotate", "skew-x", "skew-y", "scale", "scale-x", "scale-y", "m", "mx", "my",
   "ms", "me", "mt", "mr", "mb", "ml", "space-x", "space-y", "scroll-m", "scroll-mx", "scroll-my",
   "scroll-ms", "scroll-me", "scroll-mt", "scroll-mr", "scroll-mb", "scroll-ml", "indent",
   "order", "hue-rotate", "backdrop-hue-rotate"]

/-- Whether a stem takes arbitrary values. -/
def takesArbitrary (stem : Text) : Bool :=
  arbitraryStems.contains stem

/-- Whether a stem may be negated. -/
def takesNegative (stem : Text) : Bool :=
  negativeStems.contains stem

end UtilityTable

end ClassAudit
