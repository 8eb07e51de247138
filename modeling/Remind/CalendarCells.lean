import Mathlib.Data.Fintype.Basic
import Remind.Lib.Wrap
import Remind.TrigInfo

/-!
# CalendarCells — what the calendar prints into its boxes (calendar.c: `PrintLeft`, `PrintCentered`, `WriteOneColLine`, `WriteOneCalLine`)

The end of a text is the end of the list.  `text` is a byte string, `wcText` the wide characters
that `mbstowcs` made of it, if it could; `pos` and `wcPos` are what is left of either.  Escape
sequences are items of their own, with no width.
-/

namespace Remind

open Lib

/-- What the calendar asks of the locale. -/
structure CalChars where
  iswspace : Char → Bool
  wcwidth : Char → ℤ
  isspace : Char → Bool
  newline : iswspace '\n' = true
  newlineByte : isspace '\n' = true
  spaceByte : isspace ' ' = true

/-- `struct line_drawing` -/
inductive LinePart where
  | tlr | bl | tbl | blr | tblr | tr | tb | br | tbr | tl | lr
deriving DecidableEq, Repr

/-- What is sent to the terminal and takes no column. -/
inductive Control where
  | graphicsOn
  | graphicsOff
  | bold
  | normal
  | colorize (r g b : ℤ) (bg clamp : Bool)
  | decolorize
  | link (url : List Char)
  | linkEnd
  | lrm
deriving DecidableEq, Repr

/-- What is printed. -/
inductive CalItem where
  | chr (c : Char)
  | byte (c : Char)
  | draw (part : LinePart)
  | control (c : Control)
  | newline
  | formFeed
deriving DecidableEq, Repr

/-- A `CalEntry`, its link apart.  A time is `none` for `NO_TIME`. -/
structure CalEntry where
  text : List Char
  pos : List Char
  wcText : Option (List Char)
  wcPos : List Char
  isColor : Bool
  r : ℤ
  g : ℤ
  b : ℤ
  time : Option ℤ
  duration : Option ℤ
  priority : ℤ
  passthru : List Char
  tags : List Char
  infos : List (List Char)

/-- The settings of a calendar; `colSpaces` is the width of a box. -/
structure CalConfig extends CalChars where
  colSpaces : ℤ
  calSepLine : Bool
  useVTColors : Bool
  useBGVTColors : Bool
  terminalHyperlinks : Bool
  suppressLRM : Bool
  useUTF8Chars : Bool
  encodingIsUtf8 : Bool

/-- `bgcolor[]`: `none` for no colour. -/
abbrev BgColors := ℤ → Option (ℤ × ℤ × ℤ)

variable (k : CalConfig)

/-! ### Printing -/

/-- `gon(); DRAW(tb); goff();` -/
def drawBar : List CalItem := [.control .graphicsOn, .draw .tb, .control .graphicsOff]

/-- `send_lrm` -/
def CalConfig.sendLrm : List CalItem :=
  if k.suppressLRM then []
  else if k.useUTF8Chars || k.encodingIsUtf8 then [.control .lrm] else []

/-- `Backgroundize` -/
def CalConfig.backgroundize (bgcolor : BgColors) (d : ℤ) : List CalItem :=
  if d < 1 || d > 31 then []
  else if !k.useBGVTColors then []
  else
    match bgcolor d with
    | none => []
    | some (r, g, b) => [.control (.colorize r g b true false)]

/-- `UnBackgroundize` -/
def CalConfig.unBackgroundize (bgcolor : BgColors) (d : ℤ) : List CalItem :=
  if d < 1 || d > 31 then []
  else if !k.useBGVTColors then []
  else if (bgcolor d).isNone then [] else [.control .decolorize]

/-- The loop that prints what fits: the characters printed, the columns, and what is left. -/
def CalConfig.printLoop (width : ℤ) : ℤ → List Char → List CalItem × ℤ × List Char
  | i, [] => ([], i, [])
  | i, c :: ws =>
    if i < width then
      if i + k.wcwidth c > width then ([], i, c :: ws)
      else
        let (items, i, rest) := printLoop width (i + k.wcwidth c) ws
        (.chr c :: items, i, rest)
    else ([], i, c :: ws)

/-- The combining characters behind what was printed, and `send_lrm`. -/
def CalConfig.mopUp (ws : List Char) : List CalItem :=
  (ws.takeWhile fun c => k.wcwidth c = 0).map .chr ++ k.sendLrm

/-- `PrintLeft` -/
def CalConfig.printLeft (s : List Char) (width : ℤ) (pad : Char) : List CalItem :=
  if s = [] then List.replicate width.toNat (.byte pad)
  else
    let (items, i, ws) := k.printLoop width 0 s
    items ++ k.mopUp ws ++ List.replicate (width - i).toNat (.byte pad)

/-- `wcswidth` -/
def CalConfig.wcswidth (s : List Char) : ℤ :=
  if s.any fun c => k.wcwidth c < 0 then -1 else (s.map k.wcwidth).sum

/-- `PrintCentered` -/
def CalConfig.printCentered (s : List Char) (width : ℤ) (pad : CalItem) : List CalItem :=
  if s = [] then List.replicate width.toNat pad
  else
    let d := (width - k.wcswidth s).tdiv 2
    let d := if d < 0 then 0 else d
    let (items, i, ws) := k.printLoop width d s
    List.replicate d.toNat pad ++ items ++ k.mopUp ws ++ List.replicate (width - i).toNat pad

/-! ### One line of one box -/

/-- `get_url` -/
def CalConfig.getUrl : List (List Char) → Option (List Char)
  | [] => none
  | info :: infos =>
    if !k.terminalHyperlinks then none
    else if ':' ∉ info then getUrl infos
    else if strcasecmp (infoHeader info) ("url".toList.take (infoHeader info).length) then
      if infoValue info = [] then none else some (infoValue info)
    else getUrl infos

/-- A character as it is printed. -/
def CalConfig.printed (c : Char) : CalItem := if k.iswspace c then .byte ' ' else .chr c

/-- What is added to `numwritten` for a character. -/
def CalConfig.written (c : Char) : ℤ :=
  if k.iswspace c then 1 else if k.wcwidth c > 0 then k.wcwidth c else 0

/-- The loop that looks for the last space in the column; a place is the number of characters before
it. -/
def CalConfig.findSpace : ℕ → ℤ → Option ℕ → List Char → Option ℕ
  | ws, width, wspace, [] => if width ≤ k.colSpaces then some ws else wspace
  | ws, width, wspace, c :: s =>
    if width ≤ k.colSpaces then
      if c = '\n' then some ws
      else if k.iswspace c then findSpace (ws + 1) (width + 1) (some ws) s
      else if k.wcwidth c ≠ 0 then
        if width + k.wcwidth c > k.colSpaces then wspace
        else findSpace (ws + 1) (width + k.wcwidth c) wspace s
      else findSpace (ws + 1) width wspace s
    else wspace

/-- The loop that prints what fits where no space was found. -/
def CalConfig.printFitting : ℤ → List Char → List CalItem × ℤ × List Char
  | numwritten, [] => ([], numwritten, [])
  | numwritten, c :: ws =>
    if numwritten < k.colSpaces then
      if !k.iswspace c && k.wcwidth c > 0 && numwritten + k.wcwidth c > k.colSpaces then
        ([], numwritten, c :: ws)
      else
        let (items, n, rest) := printFitting (numwritten + k.written c) ws
        (k.printed c :: items, n, rest)
    else ([], numwritten, c :: ws)

/-- The loop that prints everything before the space. -/
def CalConfig.printBefore : ℤ → ℕ → List Char → List CalItem × ℤ × List Char
  | numwritten, 0, ws => ([], numwritten, ws)
  | numwritten, _ + 1, [] => ([], numwritten, [])
  | numwritten, wspace + 1, c :: ws =>
    let (items, n, rest) := printBefore (numwritten + k.written c) wspace ws
    (k.printed c :: items, n, rest)

/-- What goes into the line: everything before the last space, or what fits; with the columns, and
what is left. -/
def CalConfig.printRow (ws : List Char) : List CalItem × ℤ × List Char :=
  match k.findSpace 0 0 none ws with
  | none => k.printFitting 0 ws
  | some wspace => k.printBefore 0 wspace ws

/-- `ColorizeEntry`, for a reminder with a colour. -/
def CalConfig.colorizeEntry (e : CalEntry) (clamp : Bool) : List CalItem :=
  if k.useVTColors && e.isColor then [.control (.colorize e.r e.g e.b false clamp)] else []

/-- `Decolorize`, which keeps the shade of the day. -/
def CalConfig.decolorizeEntry (bgcolor : BgColors) (d : ℤ) (e : CalEntry) : List CalItem :=
  if k.useVTColors && e.isColor then .control .decolorize :: k.backgroundize bgcolor d else []

/-- `clamp` -/
def CalConfig.clamp (bgcolor : BgColors) (d : ℤ) : Bool :=
  !(d != 0 && k.useBGVTColors && (bgcolor d).isSome)

/-- `WriteOneColLine` from the search for a space on, for an entry with wide characters. -/
def CalConfig.writeWide (bgcolor : BgColors) (d : ℤ) (e : CalEntry) (next : List CalEntry) :
    List CalItem × List CalEntry :=
  let url := k.getUrl e.infos
  let (items, numwritten, ws) := k.printRow e.wcPos
  let line := k.colorizeEntry e (k.clamp bgcolor d) ++ (url.map (.control <| .link ·)).toList ++
    items ++ (url.map fun _ => .control .linkEnd).toList ++ k.decolorizeEntry bgcolor d e ++
    k.sendLrm ++ List.replicate (k.colSpaces - numwritten).toNat (.byte ' ')
  let ws := ws.dropWhile k.iswspace
  (line, if ws = [] ∧ next = [] then [] else { e with wcPos := ws } :: next)

/-- The loop that looks for the last space of a byte string; `s` is its place from `e->pos` on. -/
def CalConfig.findSpaceBytes : ℕ → Option ℕ → List Char → Option ℕ
  | s, space, [] => if s ≤ k.colSpaces then some s else space
  | s, space, c :: t =>
    if s ≤ k.colSpaces then
      if c = '\n' then some s
      else findSpaceBytes (s + 1) (if k.isspace c then some s else space) t
    else space

/-- `WriteOneColLine` from the search for a space on, for an entry without wide characters. -/
def CalConfig.writeBytes (bgcolor : BgColors) (d : ℤ) (e : CalEntry) (next : List CalEntry) :
    List CalItem × List CalEntry :=
  let n := (k.findSpaceBytes 0 none e.pos).getD k.colSpaces.toNat
  let printed := e.pos.take n
  let line := k.colorizeEntry e (k.clamp bgcolor d) ++
    printed.map (fun c => .byte (if k.isspace c then ' ' else c)) ++
    k.decolorizeEntry bgcolor d e ++
    List.replicate (k.colSpaces - printed.length).toNat (.byte ' ')
  let s := (e.pos.drop n).dropWhile k.isspace
  (line, if s = [] ∧ next = [] then [] else { e with pos := s } :: next)

/-- What is left of the text of an entry. -/
def CalEntry.left (e : CalEntry) : List Char := if e.wcText.isSome then e.wcPos else e.pos

/-- `WriteOneColLine`, for a column that is not empty: what is written, and the column behind it. -/
def CalConfig.writeOneColLine (bgcolor : BgColors) (d : ℤ) :
    List CalEntry → List CalItem × List CalEntry
  | [] => ([], [])
  | e :: next =>
    if e.left = [] ∧ next ≠ [] then
      if k.calSepLine then (k.printLeft [] k.colSpaces ' ', next) else writeOneColLine bgcolor d next
    else if e.wcText.isSome then k.writeWide bgcolor d e next
    else k.writeBytes bgcolor d e next

/-! ### One line of the seven boxes -/

/-- `CalColumn[]` -/
abbrev Columns := Fin 7 → List CalEntry

/-- What `WriteOneCalLine` writes into a box. -/
def CalConfig.writeCell (bgcolor : BgColors) (d : ℤ) (column : List CalEntry) : List CalItem :=
  k.backgroundize bgcolor d ++
    (if column ≠ [] then (k.writeOneColLine bgcolor d column).1
      else k.printCentered [] k.colSpaces (.byte ' ')) ++
    k.unBackgroundize bgcolor d

/-- The line that `WriteOneCalLine` writes. -/
def CalConfig.calLine (bgcolor : BgColors) (colToDay : Fin 7 → ℤ) (columns : Columns) :
    List CalItem :=
  drawBar ++ (List.finRange 7).flatMap (fun i =>
    k.writeCell bgcolor (colToDay i) (columns i) ++ drawBar) ++ [CalItem.newline]

/-- `WriteOneCalLine`: the result, the line, and the columns behind it. -/
def CalConfig.writeOneCalLine (bgcolor : BgColors) (colToDay : Fin 7 → ℤ) (columns : Columns) :
    ℤ × List CalItem × Columns :=
  if ∀ i, columns i = [] then (-1, [], columns)
  else
    let left : Columns := fun i => (k.writeOneColLine bgcolor (colToDay i) (columns i)).2
    (if ∀ i, left i = [] then 1 else 0, k.calLine bgcolor colToDay columns, left)

/-- `while (!done)` over the lines of a row; `none` when the fuel is out. -/
def CalConfig.writeCalLines (bgcolor : BgColors) (colToDay : Fin 7 → ℤ) :
    ℕ → Columns → Option (List (List CalItem) × Columns)
  | 0, _ => none
  | fuel + 1, columns =>
    let (done, line, left) := k.writeOneCalLine bgcolor colToDay columns
    if done < 0 then some ([], left)
    else if done ≠ 0 then some ([line], left)
    else (writeCalLines bgcolor colToDay fuel left).map fun (lines, left) => (line :: lines, left)

end Remind
