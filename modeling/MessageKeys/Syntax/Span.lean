import MessageKeys.Number.Decimal

/-!
# Places in a source file

A span is a range of bytes of a file together with the line and column where it starts,
both counted from one.  Columns are bytes too.  Numbers from outside are checked before
they become a span.
-/

namespace MessageKeys

/-- A range of bytes of a source file. -/
structure SourceSpan where
  start : Nat
  stop : Nat
  line : Nat
  column : Nat
  path : Text
  deriving DecidableEq, Repr

namespace SourceSpan

/-- Why four numbers are not a span. -/
inductive Invalid where
  | negativeStart (start : Int)
  | stopBeforeStart (stop start : Int)
  | lineTooSmall (line : Int)
  | columnTooSmall (column : Int)
  deriving DecidableEq, Repr

/-- The wording of an invalid span. -/
def Invalid.message : Invalid → Text
  | .negativeStart start =>
      Text.ofString "SourceSpan.start must be >= 0, got " ++ Numeral.signed start
  | .stopBeforeStart stop start =>
      Text.ofString "SourceSpan.end (" ++ Numeral.signed stop
        ++ Text.ofString ") must be >= start (" ++ Numeral.signed start ++ Text.ofString ")"
  | .lineTooSmall line =>
      Text.ofString "SourceSpan.line must be >= 1 (1-indexed), got " ++ Numeral.signed line
  | .columnTooSmall column =>
      Text.ofString "SourceSpan.column must be >= 1 (1-indexed), got " ++ Numeral.signed column

/-- The span with given numbers, if they make one.  The numbers are checked from left to
right. -/
def ofInts (start stop line column : Int) (path : Text) : Except Invalid SourceSpan :=
  if start < 0 then .error (.negativeStart start)
  else if stop < start then .error (.stopBeforeStart stop start)
  else if line < 1 then .error (.lineTooSmall line)
  else if column < 1 then .error (.columnTooSmall column)
  else .ok ⟨start.toNat, stop.toNat, line.toNat, column.toNat, path⟩

/-- The place as `path:line:column`, or without the path if it is unknown. -/
def describe (span : SourceSpan) : Text :=
  let place := Numeral.decimal span.line ++ CodePoint.ofChar ':' :: Numeral.decimal span.column
  if span.path.isEmpty then place else span.path ++ CodePoint.ofChar ':' :: place

end SourceSpan

end MessageKeys
