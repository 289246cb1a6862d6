import Marc21.Tag

/-!
Which fields of a bibliographic record may occur more than once. The two lists hold every numbered
tag that the format defines. A local tag is repeatable without a look at them.
-/

namespace Marc21.Tag

def number (t : Tag) : Nat := Decimal.value t.bytes

def singleNumbers : List Nat :=
  [1, 3, 5, 8, 10, 18, 36, 38, 40, 42, 43, 44, 45, 66, 100, 110, 111, 130, 240, 243, 245, 254, 256,
   263, 306, 310, 357, 384, 514, 652, 841, 842]

def repeatableNumbers : List Nat :=
  [6, 7, 13, 15, 16, 17, 20, 22, 24, 25, 26, 27, 28, 30, 31, 32, 33, 34, 35, 37, 41, 46, 47, 48, 50,
   51, 52, 55, 60, 61, 70, 71, 72, 74, 80, 82, 83, 84, 85, 86, 88, 186, 210, 222, 242, 246, 247,
   250, 255, 257, 258, 260, 264, 270, 300, 307, 321, 336, 337, 338, 340, 342, 343, 344, 345, 346,
   347, 348, 351, 352, 355, 362, 363, 365, 366, 370, 377, 380, 381, 382, 383, 385, 386, 388, 490,
   500, 501, 502, 504, 505, 506, 507, 508, 510, 511, 513, 515, 516, 518, 520, 521, 522, 524, 525,
   526, 530, 533, 534, 535, 536, 538, 540, 541, 542, 545, 546, 547, 550, 552, 555, 556, 561, 562,
   563, 565, 567, 580, 581, 583, 584, 585, 586, 588, 600, 601, 610, 611, 630, 647, 648, 650, 651,
   653, 654, 655, 657, 658, 662, 700, 710, 711, 720, 730, 740, 751, 752, 754, 758, 760, 762, 765,
   767, 770, 772, 773, 774, 775, 776, 777, 780, 785, 786, 787, 800, 810, 811, 830, 843, 844, 845,
   850, 852, 853, 854, 855, 856, 863, 864, 865, 866, 867, 868, 876, 877, 878, 880, 882, 883, 884,
   885, 886, 887]

/-- Whether fields with this tag may repeat, or `none` for a numbered tag that is not defined. -/
def repeatable? (t : Tag) : Option Bool :=
  if t.isLocal || repeatableNumbers.contains t.number then some true
  else if singleNumbers.contains t.number then some false
  else none

end Marc21.Tag
