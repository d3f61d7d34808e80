import HygienicScheme.Text.ClusterBreak

/-!
Clusters: the characters of a text that are seen as one, such as a letter with its accents. These
are the extended grapheme clusters of Unicode. Whether a character joins the cluster before it is
decided from that cluster alone.
-/
namespace HygienicScheme.Text

namespace ClusterBreak

def isControl : ClusterBreak → Bool
  | .control | .carriageReturn | .lineFeed => true
  | _ => false

def isExtender : ClusterBreak → Bool
  | .mark | .linker | .nonJoiner => true
  | _ => false

def isConjoining : ClusterBreak → Bool
  | .mark | .linker | .joiner => true
  | _ => false

def isFollower (b : ClusterBreak) : Bool := b.isExtender || b = .joiner || b = .spacingMark

def spells : ClusterBreak → ClusterBreak → Bool
  | .leadingJamo, .leadingJamo | .leadingJamo, .vowelJamo => true
  | .leadingJamo, .openSyllable | .leadingJamo, .closedSyllable => true
  | .openSyllable, .vowelJamo | .openSyllable, .trailingJamo => true
  | .vowelJamo, .vowelJamo | .vowelJamo, .trailingJamo => true
  | .closedSyllable, .trailingJamo | .trailingJamo, .trailingJamo => true
  | _, _ => false

end ClusterBreak

def classBehind (skip : ClusterBreak → Bool) (cs : List Char) : Option ClusterBreak :=
  ((cs.dropWhile fun c => skip (clusterBreak c)).head?).map clusterBreak

def endsInLinkedConsonant (before : List Char) : Bool :=
  (before.takeWhile fun c => (clusterBreak c).isConjoining).any (clusterBreak · = .linker)
    && classBehind (·.isConjoining) before = some .consonant

def endsInJoinedPictograph : List Char → Bool
  | [] => false
  | c :: before =>
    clusterBreak c = .joiner && classBehind (·.isExtender) before = some .pictograph

def endsInLoneRegional (before : List Char) : Bool :=
  (before.takeWhile (clusterBreak · = .regional)).length % 2 = 1

def joins (cluster : List Char) (c : Char) : Bool :=
  match cluster with
  | [] => true
  | last :: _ =>
    let a := clusterBreak last
    let b := clusterBreak c
    if a.isControl || b.isControl then a = .carriageReturn && b = .lineFeed
    else b.isFollower || a = .prepended || a.spells b
      || (b = .consonant && endsInLinkedConsonant cluster)
      || (b = .pictograph && endsInJoinedPictograph cluster)
      || (b = .regional && endsInLoneRegional cluster)

def clustersFrom (found : List (List Char)) (cluster : List Char) : List Char → List (List Char)
  | [] => (if cluster.isEmpty then found else cluster.reverse :: found).reverse
  | c :: cs =>
    if joins cluster c then clustersFrom found (c :: cluster) cs
    else clustersFrom (cluster.reverse :: found) [c] cs

def clusters (cs : List Char) : List (List Char) := clustersFrom [] [] cs

theorem flatten_clustersFrom (found : List (List Char)) (cluster cs : List Char) :
    (clustersFrom found cluster cs).flatten = found.reverse.flatten ++ cluster.reverse ++ cs := by
  induction cs generalizing found cluster with
  | nil => cases cluster <;> simp [clustersFrom]
  | cons c cs ih => unfold clustersFrom; split <;> simp [ih]

theorem flatten_clusters (cs : List Char) : (clusters cs).flatten = cs := by
  simp [clusters, flatten_clustersFrom]

example : clusters ['e', '\u0301', 'x'] = [['e', '\u0301'], ['x']] := by decide +kernel

end HygienicScheme.Text
