import Inlay.Text.Runs
import Inlay.Text.Utf8

/-!
Columns on a screen. A printable character takes one column, the wide characters of East Asian
scripts and the pictographs two, and marks that combine with the character before them none. Control
characters and escape sequences of a terminal take none.
-/

namespace Inlay.Width

def wideRuns : List (Nat × Nat) :=
  [(4352, 96), (4538, 2), (13, 2), (190, 4), (3, 1), (2, 1), (521, 2), (21, 2), (50, 12), (43, 1),
   (19, 1), (13, 1), (8, 2), (17, 2), (5, 2), (8, 1), (5, 1), (21, 1), (7, 2), (1, 1), (4, 1),
   (2, 1), (7, 1), (4, 2), (28, 1), (35, 1), (1, 1), (4, 3), (1, 1), (61, 3), (24, 1), (14, 1),
   (859, 2), (51, 1), (4, 1), (810, 26), (1, 89), (12, 214), (26, 12), (4, 42), (4, 17), (2, 86),
   (4, 101), (5, 43), (1, 94), (1, 84), (12, 47), (1, 40), (8, 7024), (64, 22157), (3, 55),
   (1177, 29), (643, 11172), (8540, 512), (784, 10), (22, 35), (1, 19), (1, 4), (149, 96), (127, 7),
   (28665, 4), (12, 2), (14, 6136), (8, 1238), (42, 9), (8935, 4), (1, 7), (1, 2), (1, 291),
   (45, 3), (17, 4), (8, 396), (15624, 1), (202, 1), (190, 1), (2, 10), (101, 3), (13, 44), (4, 9),
   (7, 2), (14, 6), (154, 33), (12, 9), (1, 70), (1, 22), (12, 43), (4, 5), (12, 17), (3, 1),
   (3, 71), (1, 1), (1, 187), (2, 63), (13, 4), (1, 24), (18, 1), (26, 2), (13, 1), (86, 85),
   (48, 70), (6, 1), (3, 3), (2, 3), (4, 4), (11, 2), (7, 9), (227, 12), (4, 1), (283, 47), (1, 10),
   (1, 185), (112, 13), (3, 9), (7, 46), (1, 7), (8, 14), (4, 9), (7, 9), (1287, 65534), (2, 65534)]

def zeroRuns : List (Nat × Nat) :=
  [(128, 32), (13, 1), (594, 112), (275, 7), (263, 45), (1, 1), (1, 2), (1, 2), (1, 1), (56, 6),
   (10, 11), (1, 1), (46, 21), (16, 1), (101, 8), (1, 6), (2, 2), (1, 4), (33, 1), (1, 1), (30, 27),
   (91, 11), (58, 9), (9, 1), (24, 4), (1, 9), (1, 3), (1, 5), (43, 3), (52, 2), (6, 8), (42, 57),
   (55, 1), (1, 1), (4, 8), (4, 1), (3, 7), (10, 2), (29, 1), (58, 1), (4, 4), (8, 1), (20, 2),
   (26, 1), (2, 2), (57, 1), (4, 2), (4, 2), (2, 3), (3, 1), (30, 2), (3, 1), (11, 2), (57, 1),
   (4, 5), (1, 2), (4, 1), (20, 2), (22, 6), (1, 1), (58, 1), (2, 1), (1, 4), (8, 1), (7, 2),
   (11, 2), (30, 1), (61, 1), (12, 1), (50, 1), (3, 1), (55, 1), (1, 3), (5, 3), (1, 4), (7, 2),
   (11, 2), (29, 1), (58, 1), (2, 1), (6, 1), (5, 2), (20, 2), (28, 2), (57, 2), (4, 4), (8, 1),
   (20, 2), (29, 1), (72, 1), (7, 3), (1, 1), (90, 1), (2, 7), (12, 8), (98, 1), (2, 9), (11, 6),
   (74, 2), (27, 1), (1, 1), (1, 1), (55, 14), (1, 5), (1, 2), (5, 11), (1, 36), (9, 1), (102, 4),
   (1, 6), (1, 2), (2, 2), (25, 2), (4, 3), (16, 4), (13, 1), (2, 2), (6, 1), (15, 1), (703, 3),
   (946, 3), (29, 2), (30, 2), (30, 2), (64, 2), (1, 7), (8, 1), (2, 11), (9, 1), (45, 5), (117, 2),
   (34, 1), (118, 3), (4, 2), (9, 1), (6, 3), (219, 2), (2, 1), (58, 1), (1, 7), (1, 1), (1, 1),
   (2, 8), (6, 10), (2, 1), (48, 31), (49, 4), (48, 1), (1, 5), (1, 1), (5, 1), (40, 9), (12, 2),
   (32, 4), (2, 2), (1, 3), (56, 1), (1, 2), (3, 1), (1, 3), (58, 8), (2, 2), (152, 3), (1, 13),
   (1, 7), (4, 1), (6, 1), (3, 2), (198, 64), (523, 5), (24, 7), (49, 5), (1, 10), (96, 33),
   (3070, 3), (141, 1), (96, 32), (554, 4), (107, 2), (30164, 4), (1, 10), (32, 2), (80, 2),
   (272, 1), (3, 1), (4, 1), (25, 2), (5, 1), (151, 2), (26, 18), (13, 1), (38, 8), (25, 11),
   (46, 3), (48, 1), (2, 4), (2, 2), (39, 1), (67, 6), (2, 2), (2, 2), (12, 1), (8, 1), (47, 1),
   (51, 1), (1, 3), (2, 2), (5, 2), (1, 1), (42, 2), (8, 1), (238, 1), (2, 1), (4, 1),
   (11282, 2048), (6942, 1), (737, 16), (16, 16), (207, 1), (249, 3), (513, 1), (226, 1), (149, 5),
   (1670, 3), (1, 2), (5, 4), (40, 3), (4, 1), (165, 2), (573, 4), (387, 2), (153, 11), (49, 4),
   (123, 1), (54, 15), (41, 1), (2, 2), (10, 3), (49, 4), (2, 2), (2, 1), (4, 1), (10, 1), (50, 3),
   (36, 5), (1, 8), (62, 1), (12, 2), (52, 9), (10, 4), (2, 1), (95, 3), (2, 1), (1, 2), (6, 1),
   (160, 1), (3, 8), (21, 2), (57, 2), (3, 1), (37, 7), (3, 5), (195, 8), (2, 3), (1, 1), (23, 1),
   (84, 6), (1, 1), (4, 2), (1, 2), (238, 4), (6, 2), (1, 2), (27, 2), (85, 8), (2, 1), (1, 2),
   (106, 1), (1, 1), (2, 6), (1, 1), (101, 3), (2, 4), (1, 5), (259, 9), (1, 2), (256, 2), (1, 1),
   (4, 1), (144, 4), (2, 2), (4, 1), (32, 10), (40, 6), (2, 4), (8, 1), (9, 6), (2, 3), (46, 13),
   (1, 2), (406, 7), (1, 6), (1, 1), (82, 22), (2, 7), (1, 2), (1, 2), (122, 6), (3, 1), (1, 2),
   (1, 7), (1, 1), (72, 2), (3, 1), (1, 1), (347, 2), (5435, 9), (14007, 5), (59, 7), (1048, 1),
   (63, 4), (81, 1), (19640, 2), (1, 4), (4700, 46), (2, 23), (544, 3), (9, 16), (2, 7), (30, 4),
   (148, 3), (1979, 55), (4, 50), (8, 1), (14, 1), (22, 5), (1, 15), (1360, 7), (1, 17), (2, 7),
   (1, 2), (1, 5), (261, 7), (375, 1), (61, 4), (1504, 7), (109, 7), (792246, 1), (30, 96),
   (128, 240)]

/-- A letter of a flag; two of them make one sign. -/
def isFlagLetter (c : Char) : Bool := 0x1F1E6 ≤ c.toNat && c.toNat ≤ 0x1F1FF

def isTone (c : Char) : Bool := 0x1F3FB ≤ c.toNat && c.toNat ≤ 0x1F3FF

def ofChar (c : Char) : Nat :=
  if inRuns zeroRuns c.toNat then 0 else if inRuns wideRuns c.toNat then 2 else 1

/-- How a sequence of characters is read: as text, or as the inside of an escape sequence. -/
inductive Reading where
  | text
  | escape
  | control
  | string
  deriving DecidableEq

/-- The columns of a text; `joined` if the next pictograph belongs to the sign before it. -/
def columns (reading : Reading) (joined : Bool) : List Char → Nat
  | [] => 0
  | c :: rest =>
      let n := c.toNat
      match reading with
      | .text =>
          if n = 0x1B then columns .escape false rest
          else if n < 0x20 || n = 0x7F then columns .text false rest
          else if n < 0x7F then 1 + columns .text false rest
          else if n = 0x200D then columns .text true rest
          else if joined || isTone c then columns .text false rest
          else if isFlagLetter c then
            2 + columns .text ((rest.head?.map isFlagLetter).getD false) rest
          else ofChar c + columns .text false rest
      | .escape =>
          if c = '[' then columns .control false rest
          else if c = ']' || c = 'P' || c = 'X' || c = '^' || c = '_' then
            columns .string false rest
          else if 0x20 ≤ n && n < 0x30 then columns .escape false rest
          else columns .text false rest
      | .control =>
          if 0x40 ≤ n && n < 0x7F then columns .text false rest else columns .control false rest
      | .string =>
          if n = 7 then columns .text false rest
          else if n = 0x1B then columns .escape false rest
          else columns .string false rest

def ofText (text : Bytes) : Nat := columns .text false (Utf8.chars text)

end Inlay.Width
