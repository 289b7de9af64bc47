import ChainNode.View

/-!
# The view of the majority

Reports that are empty or have a gap are not counted. The others are put, in order of arrival,
into the first camp none of whose members they contradict, or into a camp of their own.
The largest camp wins; among equally large ones the one whose shortest report is longest, and
among those the oldest. Its view is its longest report, the latest of equally long ones.
-/
namespace ChainNode

/-- Each number is one more than the number before it. -/
def consecutive : List Nat → Bool
  | a :: b :: rest => b == a + 1 && consecutive (b :: rest)
  | _ => true

/-- Do the positions, in some order, form one run without gap or repetition? -/
def isContiguous (infos : List BlockInfo) : Bool :=
  consecutive ((infos.map BlockInfo.height).mergeSort (· ≤ ·))

/-- The hash that a list of infos gives for a position, the last one if it repeats it. -/
def hashAt (infos : List BlockInfo) (position : UInt64) : Option Label :=
  (infos.reverse.find? (·.position = position)).map BlockInfo.hash

namespace Report

/-- `b` names no other hash than `a` at a position of `a`. -/
def isPeaceful (a b : Report) : Bool :=
  b.infos.all fun i =>
    match hashAt a.infos i.position with
    | none => true
    | some hash => hash == i.hash

def isUsable (r : Report) : Bool := !r.infos.isEmpty && isContiguous r.infos

end Report

/-- Reports that do not contradict each other, in order of arrival. -/
abbrev Camp := List Report

namespace Camp

def accepts (c : Camp) (r : Report) : Bool := c.all (·.isPeaceful r)

/-- Length of the shortest report. -/
def strength (c : Camp) : Nat := (c.map (·.infos.length)).min?.getD 0

/-- Put a report into the first camp that accepts it. -/
def place (r : Report) : List Camp → List Camp
  | [] => [[r]]
  | c :: cs => if c.accepts r then (c ++ [r]) :: cs else c :: place r cs

/-- More members, or as many and stronger. -/
def beats (a b : Camp) : Bool :=
  b.length < a.length || (a.length == b.length && b.strength < a.strength)

/-- The longest report, the last of equally long ones. -/
def longest : Camp → Option Report
  | [] => none
  | r :: rs =>
    some (rs.foldl (fun best m => if best.infos.length ≤ m.infos.length then m else best) r)

def view (c : Camp) : View :=
  .ofInfos (c.map Report.node) ((c.longest.map Report.infos).getD [])

end Camp

/-- The camps of the usable reports, oldest first. -/
def camps (reports : List Report) : List Camp :=
  (reports.filter Report.isUsable).foldl (fun cs r => Camp.place r cs) []

/-- The first camp that no later one beats. -/
def winner : List Camp → Option Camp
  | [] => none
  | c :: cs => some (cs.foldl (fun best d => if d.beats best then d else best) c)

def choose (reports : List Report) : Option View := (winner (camps reports)).map Camp.view

end ChainNode
