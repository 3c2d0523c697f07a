import Inlay.Text.Runs

/-!
Upper case letters: the characters of general category Lu. A run with step two holds every other
character, as in alphabets that alternate upper and lower case.
-/

namespace Inlay

def upperRuns : List (Nat × Nat × Nat) :=
  [(65, 26, 1), (101, 23, 1), (1, 7, 1), (33, 55, 2), (2, 15, 2), (2, 45, 2), (1, 2, 1), (1, 3, 2),
   (3, 2, 1), (1, 1, 1), (1, 2, 1), (1, 3, 1), (2, 4, 1), (1, 2, 1), (1, 3, 1), (3, 2, 1),
   (1, 2, 1), (1, 3, 2), (1, 2, 1), (1, 1, 1), (2, 1, 1), (1, 2, 1), (1, 3, 1), (1, 1, 1),
   (1, 2, 1), (3, 1, 1), (7, 1, 1), (2, 1, 1), (2, 1, 1), (2, 15, 2), (2, 17, 2), (2, 1, 1),
   (2, 1, 1), (1, 3, 1), (1, 57, 2), (7, 2, 1), (1, 2, 1), (2, 1, 1), (1, 4, 1), (1, 7, 2),
   (289, 3, 2), (3, 1, 1), (8, 1, 1), (6, 1, 1), (1, 3, 1), (1, 1, 1), (1, 2, 1), (1, 17, 1),
   (1, 9, 1), (35, 1, 1), (2, 3, 1), (3, 23, 2), (5, 1, 1), (2, 1, 1), (1, 2, 1), (2, 51, 1),
   (48, 33, 2), (9, 53, 2), (1, 2, 1), (1, 11, 2), (2, 95, 2), (2, 38, 1), (2889, 38, 1), (1, 1, 1),
   (5, 1, 1), (722, 86, 1), (2195, 1, 1), (6, 43, 1), (2, 3, 1), (320, 149, 2), (9, 97, 2),
   (9, 8, 1), (8, 6, 1), (10, 8, 1), (8, 8, 1), (8, 6, 1), (11, 7, 2), (8, 8, 1), (72, 4, 1),
   (12, 4, 1), (12, 4, 1), (12, 5, 1), (11, 4, 1), (262, 1, 1), (4, 1, 1), (3, 3, 1), (2, 3, 1),
   (2, 1, 1), (3, 5, 1), (6, 5, 2), (1, 4, 1), (2, 4, 1), (10, 2, 1), (5, 1, 1), (61, 1, 1),
   (2684, 48, 1), (48, 1, 1), (1, 3, 1), (2, 5, 2), (1, 4, 1), (1, 1, 1), (2, 1, 1), (8, 3, 1),
   (1, 97, 2), (8, 3, 2), (4, 1, 1), (31053, 45, 2), (19, 27, 2), (135, 13, 2), (3, 61, 2),
   (10, 3, 2), (1, 2, 1), (1, 7, 2), (4, 3, 2), (2, 3, 2), (3, 19, 2), (1, 5, 1), (1, 5, 1),
   (1, 13, 2), (1, 4, 1), (1, 1, 1), (1, 2, 1), (1, 15, 2), (24, 1, 1), (22315, 26, 1),
   (1221, 40, 1), (136, 36, 1), (156, 11, 1), (1, 15, 1), (1, 7, 1), (1, 2, 1), (1770, 51, 1),
   (157, 22, 1), (2874, 32, 1), (21888, 32, 1), (64, 25, 1), (25927, 26, 1), (26, 26, 1),
   (26, 26, 1), (26, 1, 1), (1, 2, 1), (2, 1, 1), (2, 2, 1), (2, 4, 1), (1, 8, 1), (26, 26, 1),
   (26, 2, 1), (1, 4, 1), (2, 8, 1), (1, 7, 1), (27, 2, 1), (1, 4, 1), (1, 5, 1), (1, 1, 1),
   (3, 7, 1), (27, 26, 1), (26, 26, 1), (26, 26, 1), (26, 26, 1), (26, 26, 1), (26, 26, 1),
   (30, 25, 1), (33, 25, 1), (33, 25, 1), (33, 25, 1), (33, 25, 1), (33, 1, 1), (4405, 34, 1)]

def isUpper (c : Char) : Bool :=
  if c.toNat < 0x80 then 'A' ≤ c && c ≤ 'Z'
  else inSteppedRuns upperRuns c.toNat

end Inlay
