import IncludeTrace.Tally

/-!
# The report on the totals

The totals of a trace for reading, one to a line.  The line about the depth limit
is left out if the limit kept nothing back.
-/

namespace IncludeTrace

/-- A number of things. -/
def plural (n : UInt64) (thing : String) : Text :=
  Decimal.text n.toNat ++ ' ' :: thing.toList ++ if n = 1 then [] else ['s']

/-- A line of the report. -/
def totalsLine (t : Text) : Text := ' ' :: ' ' :: t ++ ['\n']

/-- The report on the totals. -/
def Tally.report (t : Tally) : Text :=
  "Summary:\n".toList
    ++ totalsLine (plural t.filesOpened "file" ++ " opened".toList)
    ++ totalsLine (plural t.includesFound "include" ++ " found (".toList
        ++ Decimal.text t.quoted.toNat ++ " quoted, ".toList
        ++ Decimal.text t.angle.toNat ++ " angle-bracket)".toList)
    ++ totalsLine (plural t.duplicates "repeated reference" ++ " not expanded again".toList)
    ++ (if t.depthLimited = 0 then []
        else totalsLine (plural t.depthLimited "include"
          ++ " not followed (depth limit)".toList))
    ++ totalsLine (plural t.errors "error")
    ++ totalsLine ("deepest include level: ".toList ++ Decimal.text t.deepest)

end IncludeTrace
