import SamaraOS.Net.Sock

/-!
# TCP options

`parse_opts` of `net/sock.c`.  The loop is driven by a count that starts at the
length of the option block; every round consumes at least one byte.
-/

namespace SamaraOS.Net

structure TOpt where
  mss : Nat := 0
  ws : Option Nat := none
  sackok : Bool := false
  ts : Bool := false
  tsval : U32 := 0
  tsecr : U32 := 0
  sack : List (U32 × U32) := []

def sackBlocks (p : List U8) (l room : Nat) : List (U32 × U32) :=
  ((List.range ((l - 2) / 8)).map fun i =>
    (be32 p (2 + 8 * i), be32 p (2 + 8 * i + 4))).take room

def parseOne (o : TOpt) (k l : Nat) (p : List U8) : TOpt :=
  if k = 2 ∧ l = 4 then { o with mss := (be16 p 2).toNat }
  else if k = 3 ∧ l = 3 then { o with ws := some (min (p.getD 2 0).toNat 14) }
  else if k = 4 ∧ l = 2 then { o with sackok := true }
  else if k = 8 ∧ l = 10 then
    { o with ts := true, tsval := be32 p 2, tsecr := be32 p 6 }
  else if k = 5 ∧ (l - 2) % 8 = 0 then
    { o with sack := o.sack ++ sackBlocks p l (4 - o.sack.length) }
  else o

def parseLoop : Nat → List U8 → TOpt → TOpt
  | 0, _, o => o
  | _ + 1, [], o => o
  | fuel + 1, k :: rest, o =>
    if k = 0 then o
    else if k = 1 then parseLoop fuel rest o
    else match rest with
      | [] => o
      | lb :: _ =>
        let l := lb.toNat
        if l < 2 || rest.length + 1 < l then o
        else parseLoop fuel ((k :: rest).drop l)
          (parseOne o k.toNat l (k :: rest))

def parseOpts (p : List U8) : TOpt := parseLoop p.length p {}

end SamaraOS.Net
